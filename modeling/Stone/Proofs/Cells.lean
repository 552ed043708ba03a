/-
The heap as a store of cells. A cell is a name in a scope, and it is empty or holds a value. Scopes share each other's
outer scopes, so a change that is made through one scope is seen from many others, and a name that is bound further
inside hides the outer ones; but all that a binding does is to fill one cell. Which scopes see it follows from where the
first filled cell lies on their way outwards.

- `ScopeCall`: the calls that programs make on scopes.
- `Heap.Finds`: the way outwards, link by link, as a relation.
- `scopes_hold_cells`: after any calls, links lead to older scopes, each look-up ends with the first filled cell, a
  binding fills one cell, and it is seen from exactly those scopes that find this cell first.
-/
import Stone.Proofs.Scopes

namespace Stone

/-! ## Calls -/

/-- a call on scopes. Scopes are numbered in the order in which they are made. -/
inductive ScopeCall where
  | new
  | nested (outer : ScopeId)
  | put (s : ScopeId) (name : String) (value : Value)
  | putNew (s : ScopeId) (name : String) (value : Value)
  | get (s : ScopeId) (name : String)
  | locate (s : ScopeId) (name : String)

namespace ScopeCall

/-- the scope that a call is about -/
def scope? : ScopeCall → Option ScopeId
  | new => none
  | nested s => some s
  | put s _ _ => some s
  | putNew s _ _ => some s
  | get s _ => some s
  | locate s _ => some s

/-- how many scopes there are after the call -/
def sizeAfter (size : Nat) : ScopeCall → Nat
  | new => size + 1
  | nested _ => size + 1
  | _ => size

/-- where there are so many scopes, all calls are about scopes that were made before them -/
def legalFrom (size : Nat) : List ScopeCall → Bool
  | [] => true
  | c :: more => (c.scope?.all fun s => s < size) && legalFrom (c.sizeAfter size) more

/-- the heap after the call; looking changes nothing -/
def change (h : Heap) : ScopeCall → Heap
  | new => (h.newScope none).2
  | nested s => (h.newScope (some s)).2
  | put s name v => h.put s name v
  | putNew s name v => h.putNew s name v
  | get _ _ => h
  | locate _ _ => h

/-- the heap after all of these calls -/
def changeAll (h : Heap) (calls : List ScopeCall) : Heap := calls.foldl change h

end ScopeCall

/-! ## Looking outwards -/

namespace Heap

/-- every link leads to an older scope -/
def Linked (h : Heap) : Prop := ∀ s o, (h.scope s).outer = some o → o < s

/-- going outwards from `s`, link by link, to the first scope that binds the name ends with this answer -/
inductive Finds (h : Heap) (name : String) : ScopeId → Option ScopeId → Prop
  | here {s : ScopeId} : (h.scope s).binds name = true → Finds h name s (some s)
  | outwards {s o : ScopeId} {answer : Option ScopeId} : (h.scope s).binds name = false →
      (h.scope s).outer = some o → Finds h name o answer → Finds h name s answer
  | nowhere {s : ScopeId} : (h.scope s).binds name = false → (h.scope s).outer = none → Finds h name s none

/-- the second heap is the first one with one cell filled, and this is what the scopes see then -/
structure Fills (h h' : Heap) (target : ScopeId) (name : String) (v : Value) : Prop where
  size : h'.scopes.size = h.scopes.size
  links : ∀ u, (h'.scope u).outer = (h.scope u).outer
  cells : ∀ u m, (h'.scope u).get? m = if u = target ∧ m = name then some v else (h.scope u).get? m
  seen : ∀ u m, h'.get? u m = if m = name ∧ h'.locate? u name = some target then some v else h.get? u m

section Looking

variable {h h' : Heap} {s u target : ScopeId} {name : String} {v : Value}

/-- where all links lead to older scopes, all links are followed -/
theorem Linked.outer?_eq (hl : h.Linked) (s : ScopeId) : h.outer? s = (h.scope s).outer := by
  cases ho : (h.scope s).outer with
  | none => rw [outer?, ho, Option.filter_none]
  | some o => rw [outer?, ho, Option.filter_some, if_pos (decide_eq_true (hl s o ho))]

theorem Finds.unique {a b : Option ScopeId} (ha : h.Finds name s a) (hb : h.Finds name s b) : a = b := by
  induction ha with
  | here hs => cases hb <;> simp_all
  | outwards hs ho _ ih =>
    cases hb with
    | here hs' => simp [hs] at hs'
    | outwards _ ho' hb =>
      cases ho.symm.trans ho'
      exact ih hb
    | nowhere _ ho' => simp [ho] at ho'
  | nowhere hs ho => cases hb <;> simp_all

/-- **Looking outwards ends**: links lead to older scopes, so the induction is on the age of the scope. -/
theorem Linked.finds (hl : h.Linked) (s : ScopeId) (name : String) : h.Finds name s (h.locate? s name) := by
  induction s using Nat.strongRecOn with
  | ind s ih =>
    rw [locate?_step, hl.outer?_eq]
    cases hs : (h.scope s).binds name with
    | true => exact .here hs
    | false =>
      cases ho : (h.scope s).outer with
      | none => exact .nowhere hs ho
      | some o => exact .outwards hs ho (ih o (hl s o ho))

theorem binds_of_locate? (hu : h.locate? s name = some u) : (h.scope u).binds name = true :=
  List.find?_some (p := fun u => (h.scope u).binds name) hu

theorem get?_of_locate? (hu : h.locate? s name = some u) : h.get? s name = (h.scope u).get? name := by
  rw [get?_eq, hu, Option.bind_some]

/-- a value is seen where a cell is found -/
theorem isSome_get? (h : Heap) (s : ScopeId) (name : String) : (h.get? s name).isSome = (h.locate? s name).isSome := by
  cases hl : h.locate? s name with
  | none => rw [get?_eq, hl]; rfl
  | some u =>
    rw [get?_of_locate? hl]
    exact binds_of_locate? hl

/-- a scope that binds a name is there -/
theorem lt_size_of_binds (hs : (h.scope s).binds name = true) : s < h.scopes.size := by
  by_contra hge
  rw [scope_of_le (not_lt.1 hge)] at hs
  cases hs

/-! ## Filling a cell -/

/-- a search that finds one more element finds that one, or does not notice -/
theorem find?_one_more {α : Type} {p q : α → Bool} {a : α} (ha : q a = true) (hpq : ∀ x, x ≠ a → q x = p x)
    (l : List α) : l.find? q = some a ∨ l.find? q = l.find? p := by
  induction l with
  | nil => exact Or.inr rfl
  | cons x l ih =>
    by_cases hx : x = a
    · left
      rw [hx, List.find?_cons, ha]
    · simp only [List.find?_cons, hpq x hx]
      cases p x with
      | true => exact Or.inr rfl
      | false => exact ih

/-- scopes with the same links have the same way outwards -/
theorem chain_congr (hlinks : ∀ u, (h'.scope u).outer = (h.scope u).outer) (s : ScopeId) : h'.chain s = h.chain s := by
  induction s using Nat.strongRecOn with
  | ind s ih =>
    have hout : h'.outer? s = h.outer? s := by rw [outer?, outer?, hlinks]
    rw [chain_step, chain_step, hout]
    cases ho : h.outer? s with
    | none => rfl
    | some o => exact congrArg (s :: ·) (ih o (outer?_lt ho))

/-- **Who sees a filled cell**: the scopes that find it before any other. -/
theorem seen_of_cells (hlinks : ∀ u, (h'.scope u).outer = (h.scope u).outer)
    (hcells : ∀ u m, (h'.scope u).get? m = if u = target ∧ m = name then some v else (h.scope u).get? m)
    (u : ScopeId) (m : String) :
    h'.get? u m = if m = name ∧ h'.locate? u name = some target then some v else h.get? u m := by
  have hchain := chain_congr hlinks u
  by_cases hm : m = name
  · subst hm
    have htarget : (h'.scope target).get? m = some v := by rw [hcells, if_pos ⟨rfl, rfl⟩]
    have hother : ∀ x, x ≠ target → (h'.scope x).get? m = (h.scope x).get? m := fun x hx => by
      rw [hcells, if_neg fun h => hx h.1]
    have hfound : h'.locate? u m = some target ∨ h'.locate? u m = h.locate? u m := by
      unfold locate?
      rw [hchain]
      apply find?_one_more
      · simp [Scope.binds, htarget]
      · intro x hx
        simp [Scope.binds, hother x hx]
    by_cases ht : h'.locate? u m = some target
    · rw [if_pos ⟨rfl, ht⟩, get?_of_locate? ht, htarget]
    · rw [if_neg fun h => ht h.2]
      have hsame := hfound.resolve_left ht
      cases hl : h.locate? u m with
      | none => rw [get?_eq, get?_eq, hsame, hl]; rfl
      | some w =>
        have hw : w ≠ target := fun hw => ht (by rw [hsame, hl, hw])
        rw [get?_of_locate? (hsame.trans hl), get?_of_locate? hl, hother w hw]
  · rw [if_neg fun h => hm h.1]
    have hsame : ∀ x, (h'.scope x).get? m = (h.scope x).get? m := fun x => by rw [hcells, if_neg fun h => hm h.2]
    have hlocate : h'.locate? u m = h.locate? u m := by simp only [locate?, hchain, Scope.binds, hsame]
    simp only [get?_eq, hlocate, hsame]

/-- a binding in a scope that is there fills its cell -/
theorem fills_putNew (hs : s < h.scopes.size) (name : String) (v : Value) : h.Fills (h.putNew s name v) s name v := by
  have hscope : ∀ u, (h.putNew s name v).scope u = if u = s then (h.scope s).put name v else h.scope u := by
    intro u
    by_cases hu : u = s
    · rw [if_pos hu, hu, scope_putNew_self hs]
    · rw [if_neg hu, scope_putNew_ne hu]
  have hlinks : ∀ u, ((h.putNew s name v).scope u).outer = (h.scope u).outer := by
    intro u
    rw [hscope]
    split
    · rename_i hu
      rw [hu]
      rfl
    · rfl
  have hcells : ∀ u m, ((h.putNew s name v).scope u).get? m =
      if u = s ∧ m = name then some v else (h.scope u).get? m := by
    intro u m
    rw [hscope]
    by_cases hu : u = s
    · simp [hu, Scope.get?_put]
    · simp [hu]
  exact ⟨size_putNew h s name v, hlinks, hcells, seen_of_cells hlinks hcells⟩

/-- an assignment fills the cell that is found, or that of the scope itself -/
theorem fills_put (hs : s < h.scopes.size) (name : String) (v : Value) :
    h.Fills (h.put s name v) ((h.locate? s name).getD s) name v := by
  apply fills_putNew
  cases hl : h.locate? s name with
  | none => exact hs
  | some u => exact lt_size_of_binds (binds_of_locate? hl)

/-! ## Every history -/

theorem Linked.fills {t : ScopeId} (hl : h.Linked) (hf : h.Fills h' t name v) : h'.Linked := by
  intro s o ho
  rw [hf.links] at ho
  exact hl s o ho

/-- a new scope may lie in one that is there -/
theorem Linked.newScope (hl : h.Linked) {outer : Option ScopeId} (ho : ∀ o ∈ outer, o < h.scopes.size) :
    (h.newScope outer).2.Linked := by
  intro s o hs
  by_cases hnew : s = h.scopes.size
  · subst hnew
    rw [scope_newScope_self] at hs
    exact ho o hs
  · rw [scope_newScope_ne hnew] at hs
    exact hl s o hs

end Looking

end Heap

namespace ScopeCall

variable {h : Heap} {c : ScopeCall}

/-- one call keeps the links in order -/
theorem change_linked (hl : h.Linked) (hc : c.scope?.all (fun s => s < h.scopes.size) = true) :
    (c.change h).Linked ∧ (c.change h).scopes.size = c.sizeAfter h.scopes.size := by
  cases c with
  | new => exact ⟨hl.newScope nofun, h.size_newScope none⟩
  | nested s =>
    refine ⟨hl.newScope fun o ho => ?_, h.size_newScope (some s)⟩
    cases ho
    simpa [scope?] using hc
  | put s name v =>
    have hf := h.fills_put (by simpa [scope?] using hc) name v
    exact ⟨hl.fills hf, hf.size⟩
  | putNew s name v =>
    have hf := h.fills_putNew (by simpa [scope?] using hc) name v
    exact ⟨hl.fills hf, hf.size⟩
  | get s name => exact ⟨hl, rfl⟩
  | locate s name => exact ⟨hl, rfl⟩

/-- so do all calls, one after the other -/
theorem changeAll_linked {calls : List ScopeCall} (hl : h.Linked) (hc : legalFrom h.scopes.size calls = true) :
    (changeAll h calls).Linked := by
  induction calls generalizing h with
  | nil => exact hl
  | cons c more ih =>
    simp only [legalFrom, Bool.and_eq_true] at hc
    obtain ⟨hnext, hsize⟩ := change_linked hl hc.1
    exact ih hnext (by rw [hsize]; exact hc.2)

end ScopeCall

theorem Heap.linked_empty : Heap.empty.Linked := by
  intro s o ho
  simp [Heap.scope, Heap.empty] at ho

/-- **Scopes hold cells.** Make any calls, each about scopes that were made before it. Every link leads to an older
scope. Going outwards from a scope always ends, and `locate?` is where it ends. A value is seen if and only if a cell is
found, and it is the one in that cell. And whatever is bound next, one cell changes: an assignment fills the cell that
is found, or that of the scope itself if there is none, a new binding that of the scope itself; and every scope sees
there the new value if it finds this cell first, and what it saw before otherwise. -/
theorem scopes_hold_cells (calls : List ScopeCall) (hc : ScopeCall.legalFrom 0 calls = true) :
    let h := ScopeCall.changeAll .empty calls
    (∀ s o, (h.scope s).outer = some o → o < s) ∧
      (∀ s name answer, h.Finds name s answer ↔ h.locate? s name = answer) ∧
      (∀ s name, (h.get? s name).isSome = (h.locate? s name).isSome ∧
        ∀ u, h.locate? s name = some u → h.get? s name = (h.scope u).get? name) ∧
      ∀ s < h.scopes.size, ∀ name v,
        h.Fills (h.put s name v) ((h.locate? s name).getD s) name v ∧ h.Fills (h.putNew s name v) s name v := by
  intro h
  have hl : h.Linked := ScopeCall.changeAll_linked Heap.linked_empty hc
  refine ⟨hl, fun s name answer => ?_, fun s name => ⟨h.isSome_get? s name, fun u => Heap.get?_of_locate?⟩,
    fun s hs name v => ⟨Heap.fills_put hs name v, Heap.fills_putNew hs name v⟩⟩
  constructor
  · exact (hl.finds s name).unique
  · rintro rfl
    exact hl.finds s name

/-- two scopes inside a third one, and one of them has an `x` of its own: an assignment from the other one fills the
outer cell -/
theorem shared_scope_holds_cells :
    let calls : List ScopeCall :=
      [.new, .putNew 0 "x" (.string "outer"), .nested 0, .nested 0, .putNew 1 "x" (.string "inner"), .get 2 "x"]
    let h := ScopeCall.changeAll .empty calls
    ScopeCall.legalFrom 0 calls = true ∧ 2 < h.scopes.size ∧ h.locate? 2 "x" = some 0 ∧
      h.Finds "x" 2 (some 0) ∧ h.Fills (h.put 2 "x" (.string "new")) 0 "x" (.string "new") := by
  intro calls h
  have hlegal : ScopeCall.legalFrom 0 calls = true := by decide
  have hsize : 2 < h.scopes.size := by decide
  have hfound : h.locate? 2 "x" = some 0 := by cbv
  obtain ⟨-, hfinds, -, hfills⟩ := scopes_hold_cells calls hlegal
  have hput := (hfills 2 hsize "x" (.string "new")).1
  rw [hfound] at hput
  exact ⟨hlegal, hsize, hfound, (hfinds 2 "x" (some 0)).2 hfound, hput⟩

end Stone
