/-
Isolation of scopes. Code that runs in a scope gets at other scopes in two ways only: through the outer links and
through the functions that are bound in scopes it gets at. Calls go into the scopes of such functions and open new ones,
and what is reached changes while the code runs; but the scopes that were there and could not be reached in the
beginning stay as they were.

- `evaluate_isolated`: evaluation leaves those scopes alone, however it ends, and its value does not lead to them.
-/
import Stone.Proofs.Invariant

namespace Stone

/-! ## Reachable scopes -/

/-- the scopes that can be reached from a scope -/
inductive Heap.Reaches (h : Heap) (s : ScopeId) : ScopeId → Prop
  | here : Reaches h s s
  | outer {u o : ScopeId} : Reaches h s u → h.outer? u = some o → Reaches h s o
  /-- through a function that is bound in a scope reached before -/
  | captured {u : ScopeId} {name : String} {f : Function} :
      Reaches h s u → (h.scope u).get? name = some (.function f) → Reaches h s f.scope

/-- the scopes that can be reached from a value: those that its function reaches -/
def Value.Reaches (v : Value) (h : Heap) (u : ScopeId) : Prop := ∃ f, v.function? = some f ∧ h.Reaches f.scope u

/-- the heap that an action leaves, with or without a result -/
def Evaluation.heapAfter {α : Type} (p : Evaluation α) (h : Heap) : Heap :=
  match p.run h with
  | .ok _ h' => h'
  | .error _ h' => h'

/-! ## The invariant -/

/-- nothing outside the region has changed since the heap was `h₀`, and nothing inside leads out of it -/
structure Confined (h₀ : Heap) (region : ScopeId → Prop) (h : Heap) : Prop where
  outer : ∀ {u o}, region u → h.outer? u = some o → region o
  captured : ∀ {u name f}, region u → (h.scope u).get? name = some (.function f) → region f.scope
  size : h₀.scopes.size ≤ h.scopes.size
  frame : ∀ u, ¬ region u → h.scope u = h₀.scope u

namespace Confined

variable {h₀ h : Heap} {region : ScopeId → Prop} {s u : ScopeId} {name : String} {v : Value}

/-- what a scope of the region reaches is in the region -/
theorem reaches (hc : Confined h₀ region h) (hs : region s) (hu : h.Reaches s u) : region u := by
  induction hu with
  | here => exact hs
  | outer _ ho ih => exact hc.outer ih ho
  | captured _ hf ih => exact hc.captured ih hf

theorem chain (hc : Confined h₀ region h) (hs : region s) : ∀ u ∈ h.chain s, region u :=
  Heap.forall_chain hs fun _ _ => hc.outer

theorem putNew (hc : Confined h₀ region h) (hs : region s) (hv : ∀ f, v.function? = some f → region f.scope) :
    Confined h₀ region (h.putNew s name v) where
  outer hu ho := hc.outer hu (by rwa [Heap.outer?_putNew] at ho)
  captured hu hf := by
    rcases Heap.get?_scope_putNew hf with ⟨-, -, rfl⟩ | hf
    · exact hv _ rfl
    · exact hc.captured hu hf
  size := by
    rw [Heap.size_putNew]
    exact hc.size
  frame u hu := by
    have hne : u ≠ s := fun h => hu (h ▸ hs)
    rw [Heap.scope_putNew_ne hne, hc.frame u hu]

theorem put (hc : Confined h₀ region h) (hs : region s) (hv : ∀ f, v.function? = some f → region f.scope) :
    Confined h₀ region (h.put s name v) := by
  rcases h.put_cases s name v with ⟨u, hu, -, hput⟩ | hput
  · rw [hput]
    exact hc.putNew (hc.chain hs u hu) hv
  · rw [hput]
    exact hc.putNew hs hv

theorem newScope (hc : Confined h₀ region h) (hnew : ∀ u, h₀.scopes.size ≤ u → region u) (hs : region s) :
    Confined h₀ region (h.newScope (some s)).2 where
  outer {u o} hu ho := by
    by_cases hnow : u = h.scopes.size
    · subst hnow
      rw [Heap.outer?_newScope_self] at ho
      obtain ⟨rfl, -⟩ := Option.filter_eq_some_iff.1 ho |>.imp_left Option.some.inj
      exact hs
    · rw [Heap.outer?_newScope_ne hnow] at ho
      exact hc.outer hu ho
  captured {u name f} hu hf := by
    by_cases hnow : u = h.scopes.size
    · subst hnow
      rw [Heap.scope_newScope_self] at hf
      cases hf
    · rw [Heap.scope_newScope_ne hnow] at hf
      exact hc.captured hu hf
  size := by
    rw [Heap.size_newScope]
    exact hc.size.trans (Nat.le_succ _)
  frame u hu := by
    have hne : u ≠ h.scopes.size := fun heq => hu (hnew u (heq ▸ hc.size))
    rw [Heap.scope_newScope_ne hne, hc.frame u hu]

theorem get? (hc : Confined h₀ region h) (hs : region s) (hv : h.get? s name = some v) :
    ∀ f, v.function? = some f → region f.scope := by
  intro f hf
  obtain ⟨u, hu, hb⟩ := Heap.get?_cases hv
  cases v with
  | function g =>
    cases hf
    exact hc.captured (hc.chain hs u hu) hb
  | _ => cases hf

end Confined

/-- code in the region stays in the region; new scopes belong to it -/
def confinement (h₀ : Heap) (region : ScopeId → Prop) (hnew : ∀ u, h₀.scopes.size ≤ u → region u) : Invariant where
  World := Unit
  Later _ _ := True
  heap _ h := Confined h₀ region h
  value _ v := ∀ f, v.function? = some f → region f.scope
  tree _ _ s := region s
  activation _ _ s := region s
  refl _ := trivial
  trans _ _ := trivial
  value_later _ h := h
  tree_later _ h := h
  activation_later _ h := h
  data h f hf := by rw [h] at hf; cases hf
  part h _ _ := h
  found hh hs hv := hh.get? hs hv
  assigned hh hs _ hv := hh.put hs hv
  made hh hs _ := ⟨fun f hf => by cases hf; exact hs, ⟨hh.outer, hh.captured, hh.size, hh.frame⟩⟩
  defined hh hs hv _ _ := hh.putNew hs hv
  called hh hf := ⟨(), trivial, hh.newScope hnew (hf _ rfl), hnew _ hh.size⟩
  parameter hh hs _ hv := hh.putNew hs hv
  body h := h

/-- what can be reached in the beginning, and what is new -/
theorem confined_start (h : Heap) (s : ScopeId) : Confined h (fun u => h.Reaches s u ∨ h.scopes.size ≤ u) h where
  outer {u o} hu ho := by
    rcases hu with hu | hu
    · exact .inl (hu.outer ho)
    · rw [Heap.outer?, Heap.scope_of_le hu] at ho
      cases ho
  captured {u name f} hu hf := by
    rcases hu with hu | hu
    · exact .inl (hu.captured hf)
    · rw [Heap.scope_of_le hu] at hf
      cases hf
  size := le_refl _
  frame _ _ := rfl

/-! ## Evaluation -/

/-- **Scopes that cannot be reached are left alone.** Whatever the tree and however its evaluation ends, a scope that
was there and that the scope of the evaluation did not reach has the bindings and the outer link that it had; and of the
scopes that the value reaches, those that were there before were reached before. -/
theorem evaluate_isolated (rounds depth : Nat) (n : Node) (s : ScopeId) (h : Heap) :
    (∀ u < h.scopes.size, ¬ h.Reaches s u → ((evaluate rounds depth n s).heapAfter h).scope u = h.scope u) ∧
    ∀ v h', (evaluate rounds depth n s).run h = .ok v h' →
      ∀ u < h'.scopes.size, v.Reaches h' u → h.Reaches s u ∨ h.scopes.size ≤ u := by
  let region : ScopeId → Prop := fun u => h.Reaches s u ∨ h.scopes.size ≤ u
  have hout : ∀ u < h.scopes.size, ¬ h.Reaches s u → ¬ region u := fun u hu hn => not_or.2 ⟨hn, not_le.2 hu⟩
  have hkept := (confinement h region fun _ hu => .inr hu).evaluate_keeps (w := ()) (n := n) (s := s) (.inl .here)
    rounds depth h (confined_start h s)
  rw [Evaluation.heapAfter]
  cases hr : (evaluate rounds depth n s).run h with
  | error e h' =>
    rw [hr] at hkept
    obtain ⟨-, _, -, hc⟩ := hkept
    exact ⟨fun u hu hn => Confined.frame hc u (hout u hu hn), nofun⟩
  | ok v h' =>
    rw [hr] at hkept
    obtain ⟨_, -, hc, hv⟩ := hkept
    refine ⟨fun u hu hn => Confined.frame hc u (hout u hu hn), ?_⟩
    rintro _ _ ⟨⟩ u - ⟨f, hf, hu⟩
    exact Confined.reaches hc (hv f hf) hu

/-- the call of a function gives a closure made in the scope of the call. The scope of an older call keeps its `y`, and
the closure leads to the global scope, where the call was made. -/
theorem call_leaves_older_call_alone :
    let closure : Node := .list .closure [.list .parameters [], .list .block []]
    let f : Function := ⟨0, none, .list .parameters [], .list .block [closure], 0⟩
    let h : Heap := ⟨#[⟨[("f", .function f)], none⟩, ⟨[("y", .string "kept")], some 0⟩], 1⟩
    let n : Node := .list .primary [.leaf .name ⟨2, .identifier "f"⟩, .list .arguments []]
    ∃ v h', (evaluate 1 3 n 0).run h = .ok v h' ∧ v.Reaches h' 0 ∧ ¬ h.Reaches 0 1 ∧
      ((evaluate 1 3 n 0).heapAfter h).scope 1 = h.scope 1 ∧ (h.Reaches 0 0 ∨ h.scopes.size ≤ 0) := by
  intro closure f h n
  have hrun : (evaluate 1 3 n 0).run h =
      .ok (.function ⟨1, none, .list .parameters [], .list .block [], 2⟩) ⟨h.scopes.push ⟨[], some 0⟩, 2⟩ := by cbv
  have honly : ∀ u, h.Reaches 0 u → u = 0 := by
    intro u hu
    induction hu with
    | here => rfl
    | outer _ ho ih => subst ih; cases ho
    | @captured u name g _ hf ih =>
      subst ih
      obtain ⟨before, after, hb, -⟩ := List.lookup_eq_some_iff.1 hf
      have hmem : (name, Value.function g) ∈ [("f", Value.function f)] := by
        show _ ∈ (h.scope 0).bindings
        rw [hb]
        exact List.mem_append_right _ List.mem_cons_self
      cases List.mem_singleton.1 hmem
      rfl
  have hother : ¬ h.Reaches 0 1 := fun h1 => absurd (honly 1 h1) Nat.one_ne_zero
  have hvalue : Value.Reaches (.function ⟨1, none, .list .parameters [], .list .block [], 2⟩)
      ⟨h.scopes.push ⟨[], some 0⟩, 2⟩ 0 := ⟨_, rfl, .outer .here rfl⟩
  obtain ⟨hscopes, hreached⟩ := evaluate_isolated 1 3 n 0 h
  exact ⟨_, _, hrun, hvalue, hother, hscopes 1 (by decide) hother, hreached _ _ hrun 0 (by decide) hvalue⟩

end Stone
