/-
Scopes in a heap, one change at a time: what a binding and a new scope alter, and what they leave as it was. The chain
of a scope is followed through `outer?`, so a change that keeps the outer links keeps all chains.
-/
import Stone.Proofs.Alike

namespace Stone

/-! ## Bindings -/

namespace Scope

theorem lookup_putIn (x y : String) (v : Value) (bindings : List (String × Value)) :
    (putIn x v bindings).lookup y = if y = x then some v else bindings.lookup y := by
  induction bindings with
  | nil =>
    rw [putIn, List.lookup_cons]
    by_cases h : y = x
    · simp [h]
    · simp [h, beq_false_of_ne h]
  | cons first more ih =>
    obtain ⟨n, w⟩ := first
    rw [putIn]
    by_cases hn : n = x
    · subst hn
      by_cases h : y = n
      · simp [h]
      · simp [List.lookup_cons, h, beq_false_of_ne h]
    · by_cases h : y = n
      · subst h
        simp [hn]
      · simp [List.lookup_cons, hn, ih, beq_false_of_ne h]

/-- a binding is seen under its own name and under no other -/
theorem get?_put (s : Scope) (x y : String) (v : Value) :
    (s.put x v).get? y = if y = x then some v else s.get? y :=
  lookup_putIn x y v s.bindings

end Scope

/-! ## Heaps -/

namespace Heap

variable {h : Heap} {s u : ScopeId} {name : String} {v : Value}

theorem size_putNew (h : Heap) (s : ScopeId) (name : String) (v : Value) :
    (h.putNew s name v).scopes.size = h.scopes.size :=
  Array.size_modify

theorem scope_putNew_ne (hu : u ≠ s) : (h.putNew s name v).scope u = h.scope u := by
  rw [scope, scope, putNew, Array.getElem?_modify, if_neg (Ne.symm hu)]

theorem scope_putNew_self (hs : s < h.scopes.size) : (h.putNew s name v).scope s = (h.scope s).put name v := by
  rw [scope, scope, putNew, Array.getElem?_modify, if_pos rfl, Array.getElem?_eq_getElem hs]
  rfl

/-- places outside the heap hold nothing -/
theorem scope_of_le (hs : h.scopes.size ≤ s) : h.scope s = {} := by
  rw [scope, Array.getElem?_eq_none hs]
  rfl

theorem scope_putNew_of_le (hs : h.scopes.size ≤ s) : (h.putNew s name v).scope u = h.scope u := by
  by_cases hu : u = s
  · subst hu
    rw [scope_of_le hs, scope_of_le (by rwa [size_putNew])]
  · exact scope_putNew_ne hu

/-- a binding that is seen after a binding was made is the new one or was seen before -/
theorem get?_scope_putNew {y : String} {w : Value} (hw : ((h.putNew s name v).scope u).get? y = some w) :
    u = s ∧ y = name ∧ w = v ∨ (h.scope u).get? y = some w := by
  by_cases hu : u = s
  · subst hu
    by_cases hs : u < h.scopes.size
    · rw [scope_putNew_self hs, Scope.get?_put] at hw
      by_cases hy : y = name
      · rw [if_pos hy] at hw
        exact .inl ⟨rfl, hy, (Option.some.inj hw).symm⟩
      · rw [if_neg hy] at hw
        exact .inr hw
    · rw [scope_putNew_of_le (not_lt.1 hs)] at hw
      exact .inr hw
  · rw [scope_putNew_ne hu] at hw
    exact .inr hw

@[simp] theorem outer?_putNew (h : Heap) (s u : ScopeId) (name : String) (v : Value) :
    (h.putNew s name v).outer? u = h.outer? u := by
  have hlink : ((h.putNew s name v).scope u).outer = (h.scope u).outer := by
    by_cases hu : u = s
    · subst hu
      by_cases hs : u < h.scopes.size
      · rw [scope_putNew_self hs]
        rfl
      · rw [scope_putNew_of_le (not_lt.1 hs)]
    · rw [scope_putNew_ne hu]
  rw [outer?, outer?, hlink]

theorem size_newScope (h : Heap) (outer : Option ScopeId) : (h.newScope outer).2.scopes.size = h.scopes.size + 1 :=
  Array.size_push _

theorem scope_newScope_self (h : Heap) (outer : Option ScopeId) :
    (h.newScope outer).2.scope h.scopes.size = { outer := outer } := by
  rw [scope, newScope, Array.getElem?_push_size]
  rfl

theorem scope_newScope_ne {outer : Option ScopeId} (hu : u ≠ h.scopes.size) :
    (h.newScope outer).2.scope u = h.scope u := by
  rw [scope, scope, newScope, Array.getElem?_push, if_neg hu]

theorem outer?_newScope_ne {outer : Option ScopeId} (hu : u ≠ h.scopes.size) :
    (h.newScope outer).2.outer? u = h.outer? u := by
  rw [outer?, outer?, scope_newScope_ne hu]

theorem outer?_newScope_self (h : Heap) (outer : Option ScopeId) :
    (h.newScope outer).2.outer? h.scopes.size = outer.filter (· < h.scopes.size) := by
  rw [outer?, scope_newScope_self]

/-- an assignment binds in the scope where the name is bound already, or else in this one -/
theorem put_cases (h : Heap) (s : ScopeId) (name : String) (v : Value) :
    (∃ u ∈ h.chain s, (h.scope u).binds name = true ∧ h.put s name v = h.putNew u name v) ∨
      h.put s name v = h.putNew s name v := by
  rw [put]
  cases hl : h.locate? s name with
  | none => exact .inr rfl
  | some u =>
    have hbound := List.find?_some (p := fun u => (h.scope u).binds name) hl
    exact .inl ⟨u, List.mem_of_find?_eq_some hl, hbound, rfl⟩

/-- a value that is found is bound in a scope on the chain -/
theorem get?_cases (hv : h.get? s name = some v) : ∃ u ∈ h.chain s, (h.scope u).get? name = some v := by
  rw [get?_eq] at hv
  obtain ⟨u, hl, hu⟩ := Option.bind_eq_some_iff.1 hv
  exact ⟨u, List.mem_of_find?_eq_some hl, hu⟩

/-- what holds of a scope and goes on to outer scopes holds all along the chain -/
theorem forall_chain {P : ScopeId → Prop} (hs : P s) (hP : ∀ u o, P u → h.outer? u = some o → P o) :
    ∀ u ∈ h.chain s, P u := by
  induction s using Nat.strongRecOn with
  | ind s ih =>
    intro u hu
    rw [chain_step] at hu
    rcases List.mem_cons.1 hu with rfl | hu
    · exact hs
    · cases ho : h.outer? s with
      | none => rw [ho] at hu; cases hu
      | some o =>
        rw [ho] at hu
        exact ih o (outer?_lt ho) (hP s o hs ho) u hu

end Heap

end Stone
