/-
Termination. Only loops can run without end. Functions may call themselves and each other, and they are reached through
variables, arguments and other functions; but evaluations nest only so deep, and everything else that one evaluation
does is gone through once. So where there is no loop, neither in the tree nor in the body of a function that its scope
leads to, evaluation ends. It makes no rounds then, and how many a loop may make has no part in the result.

- `evaluateToLoop_endsLike`: evaluation that does not end comes to a loop on its way.
- `evaluate_terminates`: evaluation ends where no loop can be reached.
-/
import Stone.Proofs.Binders
import Stone.Proofs.Isolation
import Stone.Proofs.Machine

namespace Stone

open Evaluation

/-! ## Watching for loops -/

/-- the first action is stopped by the alarm, or both do the same and come to an end -/
def EndsLike {α : Type} (p q : Evaluation α) : Prop :=
  ∀ h, Stopped Invariant.alarm p h ∨ q.run h = p.run h ∧ ∀ k, p.run h ≠ .error .endless k

section Rules

variable {α β : Type} {p q : Evaluation α} {f g : α → Evaluation β}

theorem EndsLike.bind (hp : EndsLike p q) (hf : ∀ a, EndsLike (f a) (g a)) : EndsLike (p >>= f) (q >>= g) := by
  intro h
  rcases hp h with hs | ⟨hq, hends⟩
  · exact .inl (stopped_first hs)
  · cases hr : p.run h with
    | error e k =>
      right
      rw [EStateM.run_bind, EStateM.run_bind, hq, hr]
      refine ⟨rfl, fun k' hk => ?_⟩
      cases hk
      exact hends k hr
    | ok a k =>
      rcases hf a k with hs | ⟨hg, hends'⟩
      · exact .inl (stopped_bind (.inl hr) hs)
      · right
        rw [EStateM.run_bind, EStateM.run_bind, hq, hr]
        exact ⟨hg, hends'⟩

/-- evaluation ends like itself in every step but the end of the rounds of a loop -/
theorem endsLike : Correspondence (m := Evaluation) (fun p q => EndsLike p q) fun _ => True where
  pure _ _ := .inr ⟨rfl, nofun⟩
  bind := .bind
  step hq h := by
    refine .inr ⟨rfl, fun k hr => ?_⟩
    obtain ⟨e, he, -⟩ := hq h _ k hr
    cases he

end Rules

/-- one tree that is no loop, if its parts end alike -/
theorem evalNode_endsLike {eval eval' : Node → ScopeId → Evaluation Value} {rounds rounds' : Nat} {n : Node}
    {s : ScopeId} (heval : ∀ n s, EndsLike (eval n s) (eval' n s)) (hn : n.is .loop = false) :
    EndsLike (evalNode rounds eval n s) (evalNode rounds' eval' n s) := by
  apply endsLike.node heval (fun _ _ => trivial)
  intro hloop
  rw [hn] at hloop
  cases hloop

/-- evaluation that stops with an alarm at the first loop that it comes to -/
def evaluateToLoop (depth : Nat) : Node → ScopeId → Evaluation Value :=
  evaluateUntil (fun m _ _ => m.is .loop) Invariant.alarm 0 depth

/-- **Evaluation without end comes to a loop.** Whoever waits for a loop stops it there; without a loop it ends, and does
the same whatever number of rounds loops may make. -/
theorem evaluateToLoop_endsLike (rounds depth : Nat) (n : Node) (s : ScopeId) :
    EndsLike (evaluateToLoop depth n s) (evaluate rounds depth n s) := by
  induction depth generalizing n s with
  | zero =>
    intro h
    rw [evaluateToLoop, Stopped, run_evaluateUntil_zero]
    split
    · exact .inl ⟨h, rfl⟩
    · refine .inr ⟨rfl, fun k hk => ?_⟩
      cases hk
  | succ depth ih =>
    intro h
    by_cases hloop : n.is .loop = true
    · exact .inl (stopped_here hloop)
    · rw [evaluateToLoop, evaluate, Stopped, run_evaluateUntil, if_neg hloop]
      exact evalNode_endsLike ih (by simpa using hloop) h

/-! ## Where no loop can be reached -/

/-- the functions that can be reached from a scope: those bound in the scopes that it reaches -/
def Heap.ReachesFunction (h : Heap) (s : ScopeId) (f : Function) : Prop :=
  ∃ u name, h.Reaches s u ∧ (h.scope u).get? name = some (.function f)

/-- nothing leads out of the region, and its functions have no loops -/
structure Loopless (h₀ : Heap) (region : ScopeId → Prop) (h : Heap) : Prop extends Confined h₀ region h where
  bodies : ∀ {u name f}, region u → (h.scope u).get? name = some (.function f) → f.body.Lacks [.loop]

namespace Loopless

variable {h₀ h : Heap} {region : ScopeId → Prop} {s : ScopeId} {name : String} {v : Value}

theorem putNew (hl : Loopless h₀ region h) (hs : region s)
    (hv : ∀ f, v.function? = some f → region f.scope ∧ f.body.Lacks [.loop]) :
    Loopless h₀ region (h.putNew s name v) where
  toConfined := hl.toConfined.putNew hs fun f hf => (hv f hf).1
  bodies hu hf := by
    rcases Heap.get?_scope_putNew hf with ⟨-, -, rfl⟩ | hf
    · exact (hv _ rfl).2
    · exact hl.bodies hu hf

theorem put (hl : Loopless h₀ region h) (hs : region s)
    (hv : ∀ f, v.function? = some f → region f.scope ∧ f.body.Lacks [.loop]) :
    Loopless h₀ region (h.put s name v) := by
  rcases h.put_cases s name v with ⟨u, hu, -, hput⟩ | hput
  · rw [hput]
    exact hl.putNew (hl.toConfined.chain hs u hu) hv
  · rw [hput]
    exact hl.putNew hs hv

theorem newScope (hl : Loopless h₀ region h) (hnew : ∀ u, h₀.scopes.size ≤ u → region u) (hs : region s) :
    Loopless h₀ region (h.newScope (some s)).2 where
  toConfined := hl.toConfined.newScope hnew hs
  bodies {u _ _} hu hf := by
    by_cases hnow : u = h.scopes.size
    · subst hnow
      rw [Heap.scope_newScope_self] at hf
      cases hf
    · rw [Heap.scope_newScope_ne hnow] at hf
      exact hl.bodies hu hf

theorem get? (hl : Loopless h₀ region h) (hs : region s) (hv : h.get? s name = some v) :
    ∀ f, v.function? = some f → region f.scope ∧ f.body.Lacks [.loop] := by
  intro f hf
  obtain ⟨u, hu, hb⟩ := Heap.get?_cases hv
  cases v with
  | function g =>
    cases hf
    have hregion := hl.toConfined.chain hs u hu
    exact ⟨hl.captured hregion hb, hl.bodies hregion hb⟩
  | _ => cases hf

end Loopless

/-- code without loops in the region meets no loops; new scopes belong to the region, and new functions are made of that
code -/
def looplessness (h₀ : Heap) (region : ScopeId → Prop) (hnew : ∀ u, h₀.scopes.size ≤ u → region u) : Invariant where
  World := Unit
  Later _ _ := True
  heap _ h := Loopless h₀ region h
  value _ v := ∀ f, v.function? = some f → region f.scope ∧ f.body.Lacks [.loop]
  tree _ n s := region s ∧ n.Lacks [.loop]
  activation _ f s := region s ∧ f.body.Lacks [.loop]
  refl _ := trivial
  trans _ _ := trivial
  value_later _ h := h
  tree_later _ h := h
  activation_later _ h := h
  data h f hf := by rw [h] at hf; cases hf
  part h _ hn := ⟨h.1, (Node.lacks_list.1 h.2).2 _ hn⟩
  found hh ht hv := hh.get? ht.1 hv
  assigned hh ht _ hv := hh.put ht.1 hv
  made hh ht hf :=
    ⟨fun f hmade => by cases hmade; exact ⟨ht.1, ht.2.within (Node.within_function? hf).2⟩,
      ⟨hh.outer, hh.captured, hh.size, hh.frame⟩, hh.bodies⟩
  defined hh ht hv _ _ := hh.putNew ht.1 hv
  called hh hf := ⟨(), trivial, hh.newScope hnew (hf _ rfl).1, hnew _ hh.size, (hf _ rfl).2⟩
  parameter hh ha _ hv := hh.putNew ha.1 hv
  body h := h

/-- what can be reached in the beginning, and what is new -/
theorem loopless_start {h : Heap} {s : ScopeId} (hh : ∀ f, h.ReachesFunction s f → f.body.Lacks [.loop]) :
    Loopless h (fun u => h.Reaches s u ∨ h.scopes.size ≤ u) h where
  toConfined := confined_start h s
  bodies {u name f} hu hf := by
    rcases hu with hu | hu
    · exact hh f ⟨u, name, hu, hf⟩
    · rw [Heap.scope_of_le hu] at hf
      cases hf

/-- **Evaluation without loops terminates.** Whatever the tree, well formed or not, if no loop stands in it or in the
body of a function that can be reached from the scope, then evaluation ends with a value or with an error, at every
depth; and the number of rounds that loops may make has no part in that. -/
theorem evaluate_terminates {n : Node} {s : ScopeId} {h : Heap} (hn : n.Lacks [.loop])
    (hh : ∀ f, h.ReachesFunction s f → f.body.Lacks [.loop]) (depth : Nat) :
    (∃ v k, ∀ rounds, (evaluate rounds depth n s).run h = .ok v k) ∨
      ∃ e k, ∀ rounds, (evaluate rounds depth n s).run h = .error (.raised e) k := by
  let I := looplessness h (fun u => h.Reaches s u ∨ h.scopes.size ≤ u) fun _ hu => .inr hu
  have hkept : I.KeptEval (evaluateToLoop depth) := by
    apply I.evaluateUntil_kept
    intro _ m u _ _ hm
    exact hm.2 m .here .loop (by simp)
  have hrun := hkept () n s ⟨.inl .here, hn⟩ h (loopless_start hh)
  -- no loop is met, so nobody is stopped by one, and the watched run is the run itself
  have hquiet : ¬ Stopped Invariant.alarm (evaluateToLoop depth n s) h := by
    rintro ⟨k, hk⟩
    rw [hk] at hrun
    exact hrun.1 rfl
  have hsame : ∀ rounds, (evaluate rounds depth n s).run h = (evaluateToLoop depth n s).run h := fun rounds =>
    ((evaluateToLoop_endsLike rounds depth n s h).resolve_left hquiet).1
  have hends : ∀ k, (evaluateToLoop depth n s).run h ≠ .error .endless k :=
    ((evaluateToLoop_endsLike 0 depth n s h).resolve_left hquiet).2
  cases hr : (evaluateToLoop depth n s).run h with
  | ok v k => exact .inl ⟨v, k, fun rounds => (hsame rounds).trans hr⟩
  | error e k =>
    cases e with
    | raised e => exact .inr ⟨e, k, fun rounds => (hsame rounds).trans hr⟩
    | endless => exact absurd hr (hends k)

/-- two functions that call each other and never return: evaluation ends all the same -/
theorem endless_recursion_terminates :
    let call (name : String) : Node := .list .primary [.leaf .name ⟨1, .identifier name⟩, .list .arguments []]
    let f : Function := ⟨0, some "f", .list .parameters [], .list .block [call "g"], 0⟩
    let g : Function := ⟨1, some "g", .list .parameters [], .list .block [call "f"], 0⟩
    let h : Heap := ⟨#[⟨[("f", .function f), ("g", .function g)], none⟩], 2⟩
    (call "f").Lacks [.loop] ∧ (∀ k, h.ReachesFunction 0 k → k.body.Lacks [.loop]) ∧
      ((∃ v k, ∀ rounds, (evaluate rounds maxEvaluation (call "f") 0).run h = .ok v k) ∨
        ∃ e k, ∀ rounds, (evaluate rounds maxEvaluation (call "f") 0).run h = .error (.raised e) k) := by
  intro call f g h
  have hcall : ∀ name, (call name).Lacks [.loop] := by
    intro name
    simp [call, Node.lacks_list, Node.lacks_leaf]
  have hbody : ∀ k, h.ReachesFunction 0 k → k.body.Lacks [.loop] := by
    rintro k ⟨u, name, -, hk⟩
    obtain ⟨before, after, hb, -⟩ := List.lookup_eq_some_iff.1 hk
    have hmem : (name, Value.function k) ∈ (h.scope u).bindings := by
      rw [hb]
      exact List.mem_append_right _ List.mem_cons_self
    cases u with
    | zero =>
      have hcases : (name, Value.function k) ∈ [("f", Value.function f), ("g", Value.function g)] := hmem
      simp only [List.mem_cons, Prod.mk.injEq, Value.function.injEq, List.not_mem_nil, or_false] at hcases
      rcases hcases with ⟨-, rfl⟩ | ⟨-, rfl⟩
      · exact Node.lacks_list.2 ⟨by decide, List.forall_mem_singleton.2 (hcall "g")⟩
      · exact Node.lacks_list.2 ⟨by decide, List.forall_mem_singleton.2 (hcall "f")⟩
    | succ u => cases hmem
  exact ⟨hcall "f", hbody, evaluate_terminates (hcall "f") hbody maxEvaluation⟩

end Stone
