/-
Heaps with the same meaning. The scopes and the functions that a program can get at in one heap are paired with those in
another heap, one to one: programs can tell two scopes apart by assigning in one of them, and two functions by comparing
them. Paired scopes bind the same names to values with the same meaning and lie in paired scopes. What else the heaps
hold, and where in them the scopes lie, does not count.

- `Heap.SameMeaning.get`: lookups give values with the same meaning.
- `Heap.SameMeaning.put`, `putNew`, `newScope`, `newFunction`: what is done to both heaps keeps their meaning the same;
  a new scope and a new function are one more pair.
-/
import Mathlib.Logic.Relator
import Stone.Proofs.Cells
import Stone.Proofs.Meaning

namespace Stone

/-! ## Pairs -/

/-- one to one, with one more pair of two that had no partner -/
theorem biUnique_insert {α β : Type} {R : α → β → Prop} (hR : Relator.BiUnique R) {a : α} {b : β} (ha : ∀ y, ¬R a y)
    (hb : ∀ x, ¬R x b) : Relator.BiUnique fun x y => R x y ∨ x = a ∧ y = b := by
  constructor
  · rintro x x' y (h | ⟨rfl, rfl⟩) (h' | ⟨rfl, hy⟩)
    · exact hR.1 h h'
    · exact absurd (hy ▸ h) (hb x)
    · exact absurd h' (hb x')
    · rfl
  · rintro x y y' (h | ⟨rfl, rfl⟩) (h' | ⟨hx, rfl⟩)
    · exact hR.2 h h'
    · exact absurd (hx ▸ h) (ha y)
    · exact absurd h' (ha y')
    · rfl

/-- which scopes and which functions of two heaps belong together -/
structure Pairing where
  scopes : ScopeId → ScopeId → Prop
  functions : Nat → Nat → Prop
  scopes_unique : Relator.BiUnique scopes
  functions_unique : Relator.BiUnique functions

namespace Pairing

/-- pairings grow -/
instance : Preorder Pairing where
  le W W' := (∀ s t, W.scopes s t → W'.scopes s t) ∧ ∀ i j, W.functions i j → W'.functions i j
  le_refl _ := ⟨fun _ _ h => h, fun _ _ h => h⟩
  le_trans _ _ _ h h' := ⟨fun s t hst => h'.1 s t (h.1 s t hst), fun i j hij => h'.2 i j (h.2 i j hij)⟩

/-- one more pair of scopes -/
def withScopes (W : Pairing) (s t : ScopeId) (hs : ∀ u, ¬W.scopes s u) (ht : ∀ u, ¬W.scopes u t) : Pairing :=
  { W with
    scopes := fun u v => W.scopes u v ∨ u = s ∧ v = t
    scopes_unique := biUnique_insert W.scopes_unique hs ht }

/-- one more pair of functions -/
def withFunctions (W : Pairing) (i j : Nat) (hi : ∀ k, ¬W.functions i k) (hj : ∀ k, ¬W.functions k j) : Pairing :=
  { W with
    functions := fun k l => W.functions k l ∨ k = i ∧ l = j
    functions_unique := biUnique_insert W.functions_unique hi hj }

end Pairing

/-! ## Functions and values -/

/-- paired functions of one name, with the same parameters and a body of the same meaning, made in paired scopes -/
structure Function.SameMeaning (W : Pairing) (f g : Function) : Prop where
  paired : W.functions f.id g.id
  name_eq : f.name = g.name
  params : f.params.SameMeaning false g.params
  body : f.body.SameMeaning true g.body
  scope : W.scopes f.scope g.scope

theorem Function.SameMeaning.mono {W W' : Pairing} (hW : W ≤ W') {f g : Function} (h : f.SameMeaning W g) :
    f.SameMeaning W' g :=
  ⟨hW.2 _ _ h.paired, h.name_eq, h.params, h.body, hW.1 _ _ h.scope⟩

/-- the same value, or functions with the same meaning -/
def Value.SameMeaning (W : Pairing) : Value → Value → Prop := Value.Rel (Function.SameMeaning W)

theorem Value.SameMeaning.mono {W W' : Pairing} (hW : W ≤ W') {a b : Value} (h : a.SameMeaning W b) :
    a.SameMeaning W' b :=
  Value.Rel.mono (fun _ _ => Function.SameMeaning.mono hW) h

/-! ## Heaps -/

/-- paired scopes and functions are in the heaps, and paired scopes have the same meaning -/
structure Heap.SameMeaning (W : Pairing) (h k : Heap) : Prop where
  scope_lt : ∀ s t, W.scopes s t → s < h.scopes.size ∧ t < k.scopes.size
  function_lt : ∀ i j, W.functions i j → i < h.functionCount ∧ j < k.functionCount
  outer : ∀ s t, W.scopes s t → Option.Rel W.scopes (h.outer? s) (k.outer? t)
  bindings : ∀ s t, W.scopes s t → ∀ name,
    Option.Rel (Value.SameMeaning W) ((h.scope s).get? name) ((k.scope t).get? name)

namespace Heap.SameMeaning

variable {W W' : Pairing} {h k : Heap} {s t : ScopeId}

/-- a name is bound in paired scopes. Outer scopes are older, so the induction is on the age of the scope. -/
theorem locate (hk : h.SameMeaning W k) (name : String) (hs : W.scopes s t) :
    Option.Rel W.scopes (h.locate? s name) (k.locate? t name) := by
  induction s using Nat.strongRecOn generalizing t with
  | ind s ih =>
    have hbinds : (h.scope s).binds name = (k.scope t).binds name := isSome_of_rel (hk.bindings s t hs name)
    have houter := hk.outer s t hs
    rw [locate?_step, locate?_step, hbinds]
    split
    · exact .some hs
    · have holder : ∀ o, h.outer? s = some o → o < s := fun o => outer?_lt
      generalize h.outer? s = a at houter holder
      generalize k.outer? t = b at houter
      cases houter with
      | none => exact .none
      | some ho => exact ih _ (holder _ rfl) ho

theorem get (hk : h.SameMeaning W k) (name : String) (hs : W.scopes s t) :
    Option.Rel (Value.SameMeaning W) (h.get? s name) (k.get? t name) := by
  have hlocate := hk.locate name hs
  rw [get?_eq, get?_eq]
  generalize h.locate? s name = a at hlocate
  generalize k.locate? t name = b at hlocate
  cases hlocate with
  | none => exact .none
  | some hu => exact hk.bindings _ _ hu name

theorem putNew (hk : h.SameMeaning W k) (name : String) (hs : W.scopes s t) {a b : Value} (hab : a.SameMeaning W b) :
    (h.putNew s name a).SameMeaning W (k.putNew t name b) where
  scope_lt := by
    rw [size_putNew, size_putNew]
    exact hk.scope_lt
  function_lt := hk.function_lt
  outer := by
    intro u v huv
    rw [outer?_putNew, outer?_putNew]
    exact hk.outer u v huv
  bindings := by
    intro u v huv x
    obtain ⟨hslt, htlt⟩ := hk.scope_lt s t hs
    by_cases hu : u = s
    · subst hu
      obtain rfl : v = t := W.scopes_unique.2 huv hs
      rw [scope_putNew_self hslt, scope_putNew_self htlt, Scope.get?_put, Scope.get?_put]
      split
      · exact .some hab
      · exact hk.bindings _ _ hs x
    · have hv : v ≠ t := fun hv => hu (W.scopes_unique.1 huv (hv ▸ hs))
      rw [scope_putNew_ne hu, scope_putNew_ne hv]
      exact hk.bindings u v huv x

theorem put (hk : h.SameMeaning W k) (name : String) (hs : W.scopes s t) {a b : Value} (hab : a.SameMeaning W b) :
    (h.put s name a).SameMeaning W (k.put t name b) := by
  have hlocate := hk.locate name hs
  rw [Heap.put, Heap.put]
  generalize h.locate? s name = u at hlocate
  generalize k.locate? t name = v at hlocate
  cases hlocate with
  | none => exact hk.putNew name hs hab
  | some huv => exact hk.putNew name huv hab

/-- **A new scope in each heap**, inside of paired ones, is one more pair. -/
theorem newScope (hk : h.SameMeaning W k) (hs : W.scopes s t) :
    ∃ W', W ≤ W' ∧ W'.scopes (h.newScope (some s)).1 (k.newScope (some t)).1 ∧
      (h.newScope (some s)).2.SameMeaning W' (k.newScope (some t)).2 := by
  obtain ⟨hslt, htlt⟩ := hk.scope_lt s t hs
  have hleft : ∀ u, ¬W.scopes h.scopes.size u := fun u hu => (hk.scope_lt _ _ hu).1.false
  have hright : ∀ u, ¬W.scopes u k.scopes.size := fun u hu => (hk.scope_lt _ _ hu).2.false
  have hle : W ≤ W.withScopes h.scopes.size k.scopes.size hleft hright := ⟨fun _ _ => .inl, fun _ _ => id⟩
  refine ⟨_, hle, .inr ⟨rfl, rfl⟩, ?_⟩
  -- the old scopes are as they were
  have hold : ∀ u v, W.scopes u v → u ≠ h.scopes.size ∧ v ≠ k.scopes.size := fun u v huv =>
    ⟨(hk.scope_lt u v huv).1.ne, (hk.scope_lt u v huv).2.ne⟩
  refine ⟨?_, hk.function_lt, ?_, ?_⟩
  · rw [size_newScope, size_newScope]
    rintro u v (huv | ⟨rfl, rfl⟩)
    · exact (hk.scope_lt u v huv).imp Nat.lt_succ_of_lt Nat.lt_succ_of_lt
    · exact ⟨Nat.lt_succ_self _, Nat.lt_succ_self _⟩
  · rintro u v (huv | ⟨rfl, rfl⟩)
    · obtain ⟨hu, hv⟩ := hold u v huv
      rw [outer?_newScope_ne hu, outer?_newScope_ne hv]
      exact rel_imp hle.1 (hk.outer u v huv)
    · rw [outer?_newScope_self, outer?_newScope_self, Option.filter_some, Option.filter_some,
        if_pos (decide_eq_true hslt), if_pos (decide_eq_true htlt)]
      exact .some (hle.1 _ _ hs)
  · rintro u v (huv | ⟨rfl, rfl⟩) x
    · obtain ⟨hu, hv⟩ := hold u v huv
      rw [scope_newScope_ne hu, scope_newScope_ne hv]
      exact rel_imp (fun _ _ => Value.SameMeaning.mono hle) (hk.bindings u v huv x)
    · rw [scope_newScope_self, scope_newScope_self]
      exact .none

/-- **A new function in each heap**, made in paired scopes, is one more pair. -/
theorem newFunction (hk : h.SameMeaning W k) (name : Option String) (hs : W.scopes s t) {p q b c : Node}
    (hp : p.SameMeaning false q) (hb : b.SameMeaning true c) :
    ∃ W', W ≤ W' ∧ Function.SameMeaning W' ⟨h.functionCount, name, p, b, s⟩ ⟨k.functionCount, name, q, c, t⟩ ∧
      Heap.SameMeaning W' { h with functionCount := h.functionCount + 1 }
        { k with functionCount := k.functionCount + 1 } := by
  have hleft : ∀ j, ¬W.functions h.functionCount j := fun j hj => (hk.function_lt _ _ hj).1.false
  have hright : ∀ i, ¬W.functions i k.functionCount := fun i hi => (hk.function_lt _ _ hi).2.false
  have hle : W ≤ W.withFunctions h.functionCount k.functionCount hleft hright := ⟨fun _ _ => id, fun _ _ => .inl⟩
  refine ⟨_, hle, ⟨.inr ⟨rfl, rfl⟩, rfl, hp, hb, hs⟩, hk.scope_lt, ?_, hk.outer, ?_⟩
  · rintro i j (hij | ⟨rfl, rfl⟩)
    · exact (hk.function_lt i j hij).imp Nat.lt_succ_of_lt Nat.lt_succ_of_lt
    · exact ⟨Nat.lt_succ_self _, Nat.lt_succ_self _⟩
  · exact fun u v huv x => rel_imp (fun _ _ => Value.SameMeaning.mono hle) (hk.bindings u v huv x)

end Heap.SameMeaning

end Stone
