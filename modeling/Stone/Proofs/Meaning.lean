/-
Trees with the same meaning. The meaning of a tree does not change if one of its tokens moves to another line, nor if
calls on an operand that has calls itself are taken together in one list. What becomes the parameters of a function is
the one place where calls must not be taken together: a function shows how many children its parameters have.

Two trees have the same meaning if such changes lead from one to the other. To decide it, both are brought into a form
without lines and with all calls taken together.

- `sameMeaning_iff`: trees have the same meaning if these forms are equal.
- `SameMeaning.spine`: an operand below all calls, and all the calls on it, in trees of the same meaning.
-/
import Mathlib.Logic.Relation
import Stone.Proofs.Likeness
import Stone.Proofs.Merged

namespace Stone

/-- may the child at this place be changed as a whole; what becomes parameters has to keep its own children -/
def ListKind.opensAt (kind : ListKind) (i : Nat) : Bool := kind.paramsPlace? != some i

namespace Node

/-! ## Changes -/

/-- one change that keeps the meaning; `top` says if the calls of the tree itself may be taken together -/
inductive Change : Bool → Node → Node → Prop
  /-- a token on another line -/
  | line {top : Bool} {kind : LeafKind} {t u : Token} : t.lexeme = u.lexeme → Change top (.leaf kind t) (.leaf kind u)
  /-- an operand that is itself a list of an operand and calls gives its calls to the list around it -/
  | splice {operand : Node} {calls more : List Node} :
      Change true (.list .primary (.list .primary (operand :: calls) :: more))
        (.list .primary (operand :: (calls ++ more)))
  | inside {top : Bool} {kind : ListKind} {before after : List Node} {n m : Node} :
      Change (kind.opensAt before.length) n m →
      Change top (.list kind (before ++ n :: after)) (.list kind (before ++ m :: after))

/-- such changes lead from one tree to the other, in either direction -/
def SameMeaning (top : Bool) : Node → Node → Prop := Relation.EqvGen (Change top)

mutual

/-- the tree without lines and with all calls on an operand taken together -/
def meaning (top : Bool) : Node → Node
  | leaf kind t => leaf kind (t.mapLine fun _ => 0)
  | list kind children =>
    list kind (if top then mergeOperand kind (meanings kind 0 children) else meanings kind 0 children)

/-- the same for children from this place on -/
def meanings (kind : ListKind) (i : Nat) : List Node → List Node
  | [] => []
  | n :: more => n.meaning (kind.opensAt i) :: meanings kind (i + 1) more

end

section Forms

variable {kind : ListKind} {top : Bool} {n m : Node} {ns ms : List Node}

theorem meanings_append (kind : ListKind) (i : Nat) (ns ms : List Node) :
    meanings kind i (ns ++ ms) = meanings kind i ns ++ meanings kind (i + ns.length) ms := by
  induction ns generalizing i with
  | nil => rfl
  | cons n ns ih =>
    rw [List.cons_append, meanings, meanings, List.cons_append, ih, List.length_cons, Nat.add_assoc, Nat.add_comm 1]

/-- lists that make no function may be changed everywhere -/
theorem meanings_eq (hk : kind.paramsPlace? = none) (i : Nat) (ns : List Node) :
    meanings kind i ns = ns.map (meaning true) := by
  have hopen : ∀ i, kind.opensAt i = true := fun i => by simp [ListKind.opensAt, hk]
  induction ns generalizing i with
  | nil => rfl
  | cons n ns ih => rw [meanings, ih, hopen, List.map_cons]

theorem meaning_primary (operand : Node) (calls : List Node) :
    (list .primary (operand :: calls)).meaning true =
      list .primary ((operand.meaning true).parts ++ calls.map (meaning true)) := by
  rw [meaning, if_pos rfl, meanings_eq rfl, List.map_cons, mergeOperand]

theorem mergeOperand_other (hk : kind ≠ .primary) (ns : List Node) : mergeOperand kind ns = ns := by
  cases kind with
  | primary => exact absurd rfl hk
  | _ => rfl

theorem meaning_list (hk : kind ≠ .primary) (ns : List Node) (top : Bool) :
    (list kind ns).meaning top = list kind (meanings kind 0 ns) := by
  rw [meaning, mergeOperand_other hk, ite_self]

/-- the form of a tree whose own calls are not taken together knows the one where they are -/
theorem meaning_top (h : n.meaning false = m.meaning false) (top : Bool) : n.meaning top = m.meaning top := by
  cases n with
  | leaf kind t =>
    cases m with
    | leaf kind' u => simpa [meaning] using h
    | list _ _ => simp [meaning] at h
  | list kind ns =>
    cases m with
    | leaf _ _ => simp [meaning] at h
    | list kind' ms =>
      simp only [meaning, Bool.false_eq_true, if_false, list.injEq] at h
      obtain ⟨rfl, hms⟩ := h
      rw [meaning, meaning, hms]

end Forms

/-! ## The same meaning -/

namespace SameMeaning

variable {top : Bool} {kind : ListKind} {n m : Node} {before after ns : List Node}

theorem of_change (h : Change top n m) : SameMeaning top n m := Relation.EqvGen.rel n m h

theorem refl (n : Node) : SameMeaning top n n := Relation.EqvGen.refl n

theorem symm (h : SameMeaning top n m) : SameMeaning top m n := Relation.EqvGen.symm n m h

theorem trans {k : Node} (h : SameMeaning top n m) (h' : SameMeaning top m k) : SameMeaning top n k :=
  Relation.EqvGen.trans n m k h h'

theorem inside (h : SameMeaning (kind.opensAt before.length) n m) :
    SameMeaning top (list kind (before ++ n :: after)) (list kind (before ++ m :: after)) := by
  induction h with
  | rel _ _ h => exact of_change (.inside h)
  | refl _ => exact refl _
  | symm _ _ _ ih => exact symm ih
  | trans _ _ _ _ _ ih ih' => exact trans ih ih'

/-- all children from a place on -/
theorem children (h : ∀ n ∈ ns, ∀ top, SameMeaning top n (n.meaning top)) (before : List Node) :
    SameMeaning top (list kind (before ++ ns)) (list kind (before ++ meanings kind before.length ns)) := by
  induction ns generalizing before with
  | nil => exact refl _
  | cons n ns ih =>
    obtain ⟨hn, hns⟩ := List.forall_mem_cons.1 h
    have hrest := ih hns (before ++ [n.meaning (kind.opensAt before.length)])
    simp only [List.append_assoc, List.singleton_append, List.length_append, List.length_singleton] at hrest
    exact (inside (hn _)).trans hrest

/-- an operand with calls gives its parts -/
theorem merge (kind : ListKind) (ns : List Node) :
    SameMeaning true (list kind ns) (list kind (mergeOperand kind ns)) := by
  unfold mergeOperand
  split
  · rename_i operand calls
    unfold parts
    split
    · exact of_change .splice
    · exact refl _
  · exact refl _

/-- a tree has the meaning of its form -/
theorem meaning (n : Node) (top : Bool) : SameMeaning top n (n.meaning top) := by
  induction n using Node.induct generalizing top with
  | leaf kind t =>
    rw [Node.meaning]
    exact of_change (.line rfl)
  | list kind ns ih =>
    have hparts : SameMeaning top (list kind ns) (list kind (meanings kind 0 ns)) := children ih []
    rw [Node.meaning]
    cases top with
    | false => exact hparts
    | true => exact hparts.trans (merge kind _)

end SameMeaning

theorem Change.meaning_eq {top : Bool} {n m : Node} (h : Change top n m) : n.meaning top = m.meaning top := by
  induction h with
  | line ht => simp [Node.meaning, Token.mapLine, ht]
  | splice =>
    rw [meaning_primary, meaning_primary, meaning_primary]
    obtain ⟨first, others, hfirst⟩ := List.exists_cons_of_ne_nil (parts_ne_nil (Node.meaning true _))
    rw [hfirst, List.cons_append, parts, List.map_append, ← List.append_assoc]
    rfl
  | inside _ ih => simp only [Node.meaning, meanings_append, meanings, Nat.zero_add, ih]

/-- **Trees have the same meaning if their forms are equal**, and only then. -/
theorem sameMeaning_iff {top : Bool} {n m : Node} : n.SameMeaning top m ↔ n.meaning top = m.meaning top := by
  constructor
  · intro h
    induction h with
    | rel _ _ h => exact h.meaning_eq
    | refl _ => rfl
    | symm _ _ _ ih => exact ih.symm
    | trans _ _ _ _ _ ih ih' => exact ih.trans ih'
  · intro h
    have hn := SameMeaning.meaning n top
    rw [h] at hn
    exact hn.trans (SameMeaning.meaning m top).symm

/-! ## What trees of the same meaning have in common -/

namespace SameMeaning

variable {top : Bool} {kind : ListKind} {n m : Node} {ns ms : List Node}

theorem form (h : SameMeaning top n m) : n.SameForm m := by
  rw [sameMeaning_iff] at h
  cases n with
  | leaf kind t =>
    cases m with
    | leaf kind' u =>
      simp only [Node.meaning, leaf.injEq, Token.mapLine, Token.mk.injEq, true_and] at h
      obtain ⟨rfl, ht⟩ := h
      exact .leaf ht
    | list _ _ => simp [Node.meaning] at h
  | list kind ns =>
    cases m with
    | leaf _ _ => simp [Node.meaning] at h
    | list kind' ms =>
      simp only [Node.meaning, list.injEq] at h
      obtain ⟨rfl, -⟩ := h
      exact .list

/-- trees that may not be changed as a whole have the same meaning where they may be -/
theorem widen (h : SameMeaning top n m) : SameMeaning true n m := by
  cases top with
  | true => exact h
  | false => exact sameMeaning_iff.2 (meaning_top (sameMeaning_iff.1 h) true)

/-- lists that are no operand with calls have nothing of their own that could be taken together -/
theorem narrow (h : SameMeaning true (list kind ns) (list kind ms)) (hk : kind ≠ .primary) (top : Bool) :
    SameMeaning top (list kind ns) (list kind ms) := by
  rw [sameMeaning_iff] at h ⊢
  rw [meaning_list hk, meaning_list hk] at h ⊢
  exact h

theorem meanings_rel {i : Nat} (h : meanings kind i ns = meanings kind i ms) (j : Nat) :
    Option.Rel (SameMeaning (kind.opensAt (i + j))) ns[j]? ms[j]? := by
  induction ns generalizing ms i j with
  | nil =>
    cases ms with
    | nil => exact .none
    | cons _ _ => cases h
  | cons n ns ih =>
    cases ms with
    | nil => cases h
    | cons m ms =>
      rw [meanings, meanings, List.cons.injEq] at h
      cases j with
      | zero => exact .some (sameMeaning_iff.2 h.1)
      | succ j => simpa [Nat.add_assoc, Nat.add_comm 1] using ih h.2 j

theorem meanings_children {i : Nat} (h : meanings kind i ns = meanings kind i ms) :
    List.Forall₂ (SameMeaning true) ns ms := by
  induction ns generalizing ms i with
  | nil =>
    cases ms with
    | nil => exact .nil
    | cons _ _ => cases h
  | cons n ns ih =>
    cases ms with
    | nil => cases h
    | cons m ms =>
      rw [meanings, meanings, List.cons.injEq] at h
      exact .cons (widen (sameMeaning_iff.2 h.1)) (ih h.2)

theorem meanings_eq_of (h : SameMeaning false (list kind ns) (list kind ms)) :
    meanings kind 0 ns = meanings kind 0 ms := by
  rw [sameMeaning_iff] at h
  simpa [Node.meaning] using h

/-- the children of trees that were not changed as a whole -/
theorem children_same (h : SameMeaning false n m) : List.Forall₂ (SameMeaning true) n.children m.children := by
  cases h.form with
  | leaf _ => exact .nil
  | list => exact meanings_children (meanings_eq_of h)

/-- the parameters of functions were not changed as a whole -/
theorem params_same (h : SameMeaning false (list kind ns) (list kind ms)) {i : Nat} (hi : kind.paramsPlace? = some i) :
    Option.Rel (SameMeaning false) ns[i]? ms[i]? := by
  have hrel := meanings_rel (meanings_eq_of h) i
  have hclosed : kind.opensAt (0 + i) = false := by simp [ListKind.opensAt, hi]
  rwa [hclosed] at hrel

end SameMeaning

/-! ## Operands below all calls -/

/-- the operand below all calls, and the calls from the inside out -/
def spine : Node → Node × List Node
  | list .primary (operand :: calls) => (operand.spine.1, operand.spine.2 ++ calls)
  | n => (n, [])

theorem spine_primary (operand : Node) (calls : List Node) :
    (list .primary (operand :: calls)).spine = (operand.spine.1, operand.spine.2 ++ calls) := by
  rw [spine]

theorem spine_single {kind : ListKind} {ns : List Node} (h : ¬(kind = .primary ∧ ns ≠ [])) :
    (list kind ns).spine = (list kind ns, []) := by
  rw [spine]
  rintro operand calls heq
  cases heq
  exact h ⟨rfl, List.cons_ne_nil _ _⟩

theorem parts_meaning (n : Node) :
    (n.meaning true).parts = n.spine.1.meaning true :: n.spine.2.map (meaning true) := by
  induction n using Node.induct with
  | leaf kind t => rfl
  | list kind ns ih =>
    by_cases hk : kind = .primary
    · subst hk
      cases ns with
      | nil => rfl
      | cons operand calls =>
        rw [meaning_primary, spine_primary, ih operand List.mem_cons_self, List.cons_append, parts, List.map_append]
    · have hform : ((list kind ns).meaning true).is .primary = false := by
        rw [meaning]
        exact beq_eq_false_iff_ne.2 hk
      rw [parts_single hform, spine_single fun h => hk h.1]
      rfl

/-- operands with calls have the same meaning as each other only -/
theorem SameMeaning.primary_cases {ns ms : List Node} (h : SameMeaning true (list .primary ns) (list .primary ms)) :
    ns = [] ∧ ms = [] ∨ ∃ a calls b calls', ns = a :: calls ∧ ms = b :: calls' := by
  rw [sameMeaning_iff] at h
  cases ns with
  | nil =>
    cases ms with
    | nil => exact .inl ⟨rfl, rfl⟩
    | cons b calls' =>
      rw [meaning_primary, parts_meaning] at h
      cases h
  | cons a calls =>
    cases ms with
    | nil =>
      rw [meaning_primary, parts_meaning] at h
      cases h
    | cons b calls' => exact .inr ⟨a, calls, b, calls', rfl, rfl⟩

/-- **Operands with calls** of the same meaning: the same operand below all calls, and the same calls. -/
theorem SameMeaning.spine {a b : Node} {calls calls' : List Node}
    (h : SameMeaning true (list .primary (a :: calls)) (list .primary (b :: calls'))) :
    SameMeaning true a.spine.1 b.spine.1 ∧
      List.Forall₂ (SameMeaning true) (a.spine.2 ++ calls) (b.spine.2 ++ calls') := by
  have hparts := congrArg parts (sameMeaning_iff.1 h)
  rw [parts_meaning, parts_meaning, spine_primary, spine_primary, List.cons.injEq] at hparts
  refine ⟨sameMeaning_iff.2 hparts.1, ?_⟩
  have hcalls : List.Forall₂ Eq ((a.spine.2 ++ calls).map (Node.meaning true))
      ((b.spine.2 ++ calls').map (Node.meaning true)) := by
    rw [List.forall₂_eq_eq_eq]
    exact hparts.2
  exact (List.forall₂_map_right_iff.1 (List.forall₂_map_left_iff.1 hcalls)).imp fun _ _ => sameMeaning_iff.2

end Node

end Stone
