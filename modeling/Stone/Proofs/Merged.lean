/-
Calls taken together. `(f(1))(2)` is an operand with one call that is itself the operand of a call; its text is
`f(1)(2)`, which reads as one operand with two calls. `Node.merged` makes one list of such lists throughout a tree.

- `sourceChars_merged`: merging does not show in the text.
- `Node.Tidy.alike_merged`: a tree of the language and its merged form on any lines are alike, so they evaluate alike.
-/
import Stone.Proofs.Alike
import Stone.Proofs.Lexemes

namespace Stone

namespace Node

/-- an operand and the calls on it, taken apart -/
def parts : Node → List Node
  | list .primary (operand :: calls) => operand :: calls
  | n => [n]

/-- children with the parts of an operand in its place -/
def mergeOperand : ListKind → List Node → List Node
  | .primary, operand :: calls => operand.parts ++ calls
  | _, ns => ns

mutual

/-- the tree with the calls on an operand with calls taken together -/
def merged : Node → Node
  | leaf kind t => leaf kind t
  | list kind children => list kind (mergeOperand kind (mergedAll children))

def mergedAll : List Node → List Node
  | [] => []
  | n :: more => n.merged :: mergedAll more

end

theorem mergedAll_eq (ns : List Node) : mergedAll ns = ns.map merged := by
  induction ns with
  | nil => rfl
  | cons n more ih => rw [mergedAll, ih, List.map_cons]

@[simp] theorem merged_leaf (kind : LeafKind) (t : Token) : (leaf kind t).merged = leaf kind t := rfl

theorem merged_primary (operand : Node) (calls : List Node) :
    (list .primary (operand :: calls)).merged = list .primary (operand.merged.parts ++ calls.map merged) := by
  rw [merged, mergedAll_eq]
  rfl

theorem merged_list {kind : ListKind} {ns : List Node} (h : kind = .primary → ns = []) :
    (list kind ns).merged = list kind (ns.map merged) := by
  rw [merged, mergedAll_eq]
  cases kind with
  | primary => rw [h rfl]; rfl
  | _ => rfl

@[simp] theorem is_merged (n : Node) (kind : ListKind) : n.merged.is kind = n.is kind := by
  cases n <;> rfl

@[simp] theorem isBareOperand_merged (n : Node) : n.merged.isBareOperand = n.isBareOperand := by
  cases n <;> rfl

theorem parts_single {n : Node} (h : n.is .primary = false) : n.parts = [n] := by
  cases n with
  | leaf _ _ => rfl
  | list k _ => cases k <;> first | rfl | cases h

theorem parts_ne_nil (n : Node) : n.parts ≠ [] := by
  unfold parts
  split <;> exact List.cons_ne_nil _ _

theorem parts_mapLines (f : Nat → Nat) (n : Node) : (n.mapLines f).parts = n.parts.map (mapLines f) := by
  by_cases h : n.is .primary = true
  · cases n with
    | leaf _ _ => cases h
    | list k ns =>
      obtain rfl : k = .primary := by simpa [Node.is] using h
      rw [mapLines_list]
      cases ns with
      | nil => simp [parts]
      | cons operand calls => simp [parts]
  · rw [parts_single (by simpa using h), parts_single (by simpa using h)]
    rfl

/-- an operand that is taken apart with its calls has the text it had -/
theorem sourceChars_parts (n : Node) (calls : List Node) :
    (list .primary (n.parts ++ calls)).sourceChars = n.operandChars ++ (calls.map sourceChars).flatten := by
  have hone : (list .primary (n :: calls)).sourceChars = n.operandChars ++ (calls.map sourceChars).flatten := by
    rw [sourceChars, sourceOfAll_eq, operandChars]
  by_cases h : n.is .primary = true
  · cases n with
    | leaf _ _ => cases h
    | list k ns =>
      obtain rfl : k = .primary := by simpa [Node.is] using h
      cases ns with
      | nil => exact hone
      | cons operand inner =>
        have hbare : (list .primary (operand :: inner)).operandChars = (list .primary (operand :: inner)).sourceChars := rfl
        rw [hbare, parts, List.cons_append, sourceChars, sourceChars, sourceOfAll_eq, sourceOfAll_eq, List.map_append,
          List.flatten_append, List.append_assoc]
  · rw [parts_single (by simpa using h)]
    exact hone

/-- **Merging does not show in the text.** -/
theorem sourceChars_merged (n : Node) : n.merged.sourceChars = n.sourceChars := by
  induction n using induct with
  | leaf kind t => rw [merged_leaf]
  | list kind ns ih =>
    have hoperand : ∀ m ∈ ns, m.merged.operandChars = m.operandChars := by
      intro m hm
      rw [operandChars, operandChars, wrapOperand, wrapOperand, isBareOperand_merged, ih m hm]
    have hall : sourceOfAll (ns.map merged) = sourceOfAll ns := by
      rw [sourceOfAll_eq, sourceOfAll_eq, List.map_map]
      exact List.map_congr_left ih
    have hstatements := sourceOfStatements_map (fun n _ => is_merged n .empty) ih
    by_cases h : kind = .primary → ns = []
    · rw [merged_list h]
      cases kind with
      | negative =>
        cases ns with
        | nil => rfl
        | cons operand more =>
          have := hoperand operand List.mem_cons_self
          rw [operandChars, operandChars] at this
          rw [List.map_cons, sourceChars, sourceChars, this]
      | primary =>
        rw [h rfl]
        rfl
      | block =>
        cases ns with
        | nil => rfl
        | cons first more =>
          rw [List.map_cons] at hstatements
          rw [List.map_cons, sourceChars, sourceChars, hstatements]
      | empty => rw [sourceChars, sourceChars]
      | _ => rw [sourceChars, sourceChars, hall]
    · cases ns with
      | nil => exact absurd (fun _ => rfl) h
      | cons operand calls =>
        obtain rfl : kind = .primary := Classical.byContradiction fun hk => h fun hp => absurd hp hk
        rw [List.map_cons, sourceOfAll, sourceOfAll, List.cons.injEq] at hall
        rw [merged_primary, sourceChars_parts, hoperand operand List.mem_cons_self, ← sourceOfAll_eq, hall.2, sourceChars,
          operandChars]

/-! ## Merged trees are alike -/

theorem isParameters_not_primary {n : Node} (h : n.isParameters = true) : n.is .primary = false := by
  cases n with
  | leaf _ _ => rfl
  | list k _ => cases k <;> first | rfl | cases h

theorem block_not_primary {n : Node} (h : n.is .block = true) : n.is .primary = false := by
  cases n with
  | leaf _ _ => rfl
  | list k _ => cases k <;> first | rfl | cases h

/-- what makes a function has no operand with calls as its child -/
theorem wellFormed_makesFunction {kind : ListKind} {ns : List Node} (h : (list kind ns).wellFormed = true)
    (hk : kind.makesFunction = true) : ∀ n ∈ ns, n.is .primary = false := by
  cases kind with
  | definition =>
    unfold wellFormed at h
    split at h <;> rename_i he <;> cases he <;> simp only [Bool.and_eq_true, Bool.false_eq_true] at h
    refine List.forall_mem_cons.2 ⟨rfl, List.forall_mem_cons.2 ⟨isParameters_not_primary h.1.2, ?_⟩⟩
    exact List.forall_mem_cons.2 ⟨block_not_primary h.2, nofun⟩
  | closure =>
    unfold wellFormed at h
    split at h <;> rename_i he <;> cases he <;> simp only [Bool.and_eq_true, Bool.false_eq_true] at h
    refine List.forall_mem_cons.2 ⟨isParameters_not_primary h.1, ?_⟩
    exact List.forall_mem_cons.2 ⟨block_not_primary h.2, nofun⟩
  | _ => cases hk

/-- **A tree and its merged form are alike**, on whatever lines the merged form is. -/
theorem Tidy.alike_merged {n : Node} (h : n.Tidy) (f : Nat → Nat) : Alike true n (n.merged.mapLines f) := by
  induction n using induct with
  | leaf kind t =>
    rw [merged_leaf, mapLines_leaf]
    exact .leaf rfl
  | list kind ns ih =>
    have hwf := (h _ .here).1
    have hchildren : ∀ ms : List Node, (∀ m ∈ ms, m ∈ ns) →
        List.Forall₂ (Alike true) ms ((ms.map merged).map (mapLines f)) := by
      intro ms hms
      induction ms with
      | nil => exact .nil
      | cons m ms ihs =>
        obtain ⟨hm, hmore⟩ := List.forall_mem_cons.1 hms
        exact .cons (ih m hm (h.child hm)) (ihs hmore)
    by_cases hp : kind = .primary → ns = []
    · rw [merged_list hp, mapLines_list]
      exact .list (hchildren ns fun _ hm => hm) fun _ hk => wellFormed_makesFunction hwf hk
    · cases ns with
      | nil => exact absurd (fun _ => rfl) hp
      | cons operand calls =>
        obtain rfl : kind = .primary := Classical.byContradiction fun hk => hp fun he => absurd he hk
        have hoperand := ih operand List.mem_cons_self (h.child List.mem_cons_self)
        have hcalls := hchildren calls fun _ hm => List.mem_cons_of_mem _ hm
        rw [merged_primary, mapLines_list, List.map_append, ← parts_mapLines]
        by_cases ho : operand.is .primary = true
        · -- calls on an operand with calls: these become one list
          cases operand with
          | leaf _ _ => cases ho
          | list k inner =>
            obtain rfl : k = .primary := by simpa [Node.is] using ho
            cases inner with
            | nil =>
              have := (h _ (.inside List.mem_cons_self .here)).1
              cases this
            | cons a more =>
              rw [merged_primary, mapLines_list] at hoperand ⊢
              obtain ⟨b, others, hb⟩ : ∃ b others, (a.merged.parts ++ more.map merged).map (mapLines f) = b :: others := by
                refine List.exists_cons_of_ne_nil fun he => ?_
                exact parts_ne_nil a.merged (List.append_eq_nil_iff.1 (List.map_eq_nil_iff.1 he)).1
              rw [hb] at hoperand ⊢
              exact .merge rfl hoperand hcalls
        · rw [parts_single (by simpa using ho)]
          exact .list (.cons hoperand hcalls) fun _ hk => by cases hk

/-- an operand that is put together again -/
theorem build_parts {n : Node} (h : n.is .primary = true → 2 ≤ n.children.length) :
    ListKind.primary.build n.parts = n := by
  by_cases hp : n.is .primary = true
  · cases n with
    | leaf _ _ => cases hp
    | list k ns =>
      obtain rfl : k = .primary := by simpa [Node.is] using hp
      have hlen : 2 ≤ ns.length := h hp
      obtain ⟨a, b, more, rfl⟩ : ∃ a b more, ns = a :: b :: more := by
        rcases ns with _ | ⟨a, _ | ⟨b, more⟩⟩
        · simp at hlen
        · simp at hlen
        · exact ⟨a, b, more, rfl⟩
      rfl
  · rw [parts_single (by simpa using hp)]
    rfl

end Node

end Stone
