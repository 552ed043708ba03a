/-
Well-formed trees: what evaluation expects of the children of every kind of list. It is a check that can be run on any
tree, and nothing that parsing gives ever fails it.

- `Fits.tidy`: trees of the language are well formed throughout, with no empty statement inside.
- `parseStatement_tidy`: so is every statement that is parsed.
-/
import Stone.Proofs.Shape

namespace Stone

namespace Node

/-- the first tree is the second or stands somewhere in it -/
inductive Within (m : Node) : Node → Prop
  | here : Within m m
  | inside {kind : ListKind} {children : List Node} {n : Node} :
      n ∈ children → Within m n → Within m (.list kind children)

/-- no list of these kinds stands in the tree -/
def Lacks (n : Node) (kinds : List ListKind) : Prop := ∀ m : Node, m.Within n → ∀ kind ∈ kinds, m.is kind = false

def isName : Node → Bool
  | leaf .name _ => true
  | _ => false

/-- a list of parameters that are all names -/
def isParameters : Node → Bool
  | list .parameters children => children.all isName
  | _ => false

end Node

namespace Token

def isNumber (t : Token) : Bool :=
  match t.lexeme with
  | .number _ => true
  | _ => false

def isIdentifier (t : Token) : Bool :=
  match t.lexeme with
  | .identifier _ => true
  | _ => false

/-- an identifier that spells an operator of the language -/
def isOperator (t : Token) : Bool := t.isIdentifier && OperatorTable.standard.contains t.text

end Token

namespace Node

/-- does the tree have the children that its kind asks for; what stands in the children is their own affair -/
def wellFormed : Node → Bool
  | leaf .number t => t.isNumber
  | leaf _ _ => true
  | list .plain _ => false
  | list .binary [_, leaf .mark op, _] => op.isOperator
  | list .binary _ => false
  | list .negative children => children.length == 1
  | list .conditional children =>
    (children.length == 2 || children.length == 3) && children.tail.all fun n => n.is .block
  | list .loop children => children.length == 2 && children.tail.all fun n => n.is .block
  | list .definition [leaf .mark name, params, body] => name.isIdentifier && params.isParameters && body.is .block
  | list .definition _ => false
  | list .closure [params, body] => params.isParameters && body.is .block
  | list .closure _ => false
  | list .primary children =>
    2 ≤ children.length && !children.head?.any (fun n => n.is .arguments) &&
      children.tail.all fun n => n.is .arguments
  | list .block _ => true
  | list .empty children => children.isEmpty
  | list .parameters children => children.all isName
  | list .arguments _ => true

/-- well formed throughout, with no empty statement -/
def Tidy (n : Node) : Prop := ∀ m, Within m n → m.wellFormed = true ∧ m.is .empty = false

theorem tidy_leaf {kind : LeafKind} {t : Token} (h : (leaf kind t).wellFormed = true) : (leaf kind t).Tidy := by
  intro m hm
  cases hm
  exact ⟨h, rfl⟩

theorem tidy_list {kind : ListKind} {children : List Node} (h : (list kind children).wellFormed = true)
    (he : kind ≠ .empty) (hc : ∀ n ∈ children, n.Tidy) : (list kind children).Tidy := by
  intro m hm
  cases hm with
  | here => exact ⟨h, by simpa [Node.is] using he⟩
  | inside hn hm => exact hc _ hn m hm

theorem Tidy.child {kind : ListKind} {ns : List Node} (h : (list kind ns).Tidy) {n : Node} (hn : n ∈ ns) : n.Tidy :=
  fun m hm => h m (.inside hn hm)

end Node

namespace Fits

variable {l : Level} {Q : Token → Prop} {n : Node}

theorem is_block (h : Fits l Q .block n) : n.is .block = true := by
  cases h
  rfl

theorem is_arguments (h : Fits l Q .arguments n) : n.is .arguments = true := by
  cases h
  rfl

theorem not_arguments {b : Bool} (h : Fits l Q (.value b) n) : n.is .arguments = false := by
  cases h <;> rfl

theorem is_parameters (h : Fits l Q .parameters n) : n.isParameters = true := by
  cases h with
  | parameters hns =>
    refine List.all_eq_true.2 fun m hm => ?_
    cases hns m hm
    rfl

theorem isOperator_of_get {line : Nat} {s : String} {p : Precedence} (h : OperatorTable.standard.get? s = some p) :
    (⟨line, .identifier s⟩ : Token).isOperator = true := by
  show OperatorTable.standard.contains s = true
  rw [OperatorTable.contains, h]
  rfl

/-- **Trees of the language are well formed** throughout. -/
theorem tidy {r : Role} (h : Fits l Q r n) (hr : r ≠ .program) : n.Tidy := by
  induction h with
  | number _ => exact Node.tidy_leaf rfl
  | string _ => exact Node.tidy_leaf rfl
  | name _ _ _ => exact Node.tidy_leaf rfl
  | parameter _ _ => exact Node.tidy_leaf rfl
  | negative _ ih =>
    exact Node.tidy_list rfl nofun (List.forall_mem_singleton.2 (ih nofun))
  | binary _ _ _ hp iha ihb =>
    refine Node.tidy_list (isOperator_of_get hp) nofun ?_
    simp only [List.forall_mem_cons]
    exact ⟨iha nofun, Node.tidy_leaf rfl, ihb nofun, nofun⟩
  | @primary _ operand calls _ ho hne hcs iho ihcs =>
    refine Node.tidy_list ?_ nofun ?_
    · have hall : calls.all (fun n => n.is .arguments) = true :=
        List.all_eq_true.2 fun c hc => (hcs c hc).is_arguments
      have hlen := List.length_pos_iff.2 hne
      simp only [Node.wellFormed, List.length_cons, List.head?_cons, Option.any_some, ho.not_arguments, List.tail_cons,
        hall, Bool.not_false, Bool.and_true, decide_eq_true_eq]
      omega
    · exact List.forall_mem_cons.2 ⟨iho nofun, fun m hm => ihcs m hm nofun⟩
  | closure _ hp hb ihp ihb =>
    refine Node.tidy_list ?_ nofun ?_
    · rw [Node.wellFormed, hp.is_parameters, hb.is_block]
      rfl
    · simp only [List.forall_mem_cons]
      exact ⟨ihp nofun, ihb nofun, nofun⟩
  | arguments _ ih => exact Node.tidy_list rfl nofun fun m hm => ih m hm nofun
  | parameters hns ih => exact Node.tidy_list (is_parameters (.parameters hns)) nofun fun m hm => ih m hm nofun
  | block _ ih => exact Node.tidy_list rfl nofun fun m hm => ih m hm nofun
  | simple _ ih => exact ih nofun
  | conditional _ hb ihc ihb =>
    refine Node.tidy_list ?_ nofun ?_
    · simp [Node.wellFormed, hb.is_block]
    · simp only [List.forall_mem_cons]
      exact ⟨ihc nofun, ihb nofun, nofun⟩
  | otherwise _ hb ho ihc ihb iho =>
    refine Node.tidy_list ?_ nofun ?_
    · simp [Node.wellFormed, hb.is_block, ho.is_block]
    · simp only [List.forall_mem_cons]
      exact ⟨ihc nofun, ihb nofun, iho nofun, nofun⟩
  | loop _ hb ihc ihb =>
    refine Node.tidy_list ?_ nofun ?_
    · simp [Node.wellFormed, hb.is_block]
    · simp only [List.forall_mem_cons]
      exact ⟨ihc nofun, ihb nofun, nofun⟩
  | definition _ _ _ _ _ _ _ => exact absurd rfl hr
  | statement _ _ => exact absurd rfl hr
  | nothing => exact absurd rfl hr

/-- a whole statement is the empty one or well formed throughout -/
theorem program_tidy (h : Fits l Q .program n) : n = .list .empty [] ∨ n.Tidy := by
  cases h with
  | nothing => exact .inl rfl
  | statement h => exact .inr (h.tidy nofun)
  | definition _ _ _ hp hb =>
    refine .inr (Node.tidy_list ?_ nofun ?_)
    · rw [Node.wellFormed, hp.is_parameters, hb.is_block]
      rfl
    · simp only [List.forall_mem_cons]
      exact ⟨Node.tidy_leaf rfl, hp.tidy nofun, hb.tidy nofun, nofun⟩

end Fits

/-- **What is parsed is well formed** in each of its parts, and only a whole statement is empty. -/
theorem parseStatement_tidy {l : Level} {s s' : TokenStream} {n m : Node}
    (h : (Language.ofLevel l).parseStatement.run s = .ok n s') (hm : m.Within n) :
    m.wellFormed = true ∧ (m.is .empty = true → m = n) := by
  rcases (parseStatement_fits (Q := fun _ => True) (fun _ _ => trivial) h).program_tidy with rfl | ht
  · cases hm with
    | here => exact ⟨rfl, fun _ => rfl⟩
    | inside hn _ => cases hn
  · obtain ⟨hw, he⟩ := ht m hm
    exact ⟨hw, fun h => absurd (h.symm.trans he) nofun⟩

end Stone
