/-
Rendered programs, parsed again. There are no keywords, so a simple statement is in danger of being taken for another one:
it must not begin with a name that is spelled `if` or `while`, nor with `def` where definitions can stand.
`Node.isClear` asks for that, throughout a statement.

- `Fits.rereads`: the lexemes of a clear tree of the language read as the tree, role by role.
- `parseProgram_rendered`: a rendered program parses as its statements, merged and one a line, unless it nests too deep.
-/
import Stone.Proofs.Reread

namespace Stone

open TokenStream Grammar Stone.Language Parsing

/-! ## Clear statements -/

namespace Node

/-- does the text begin with this word -/
def beginsWith (n : Node) (s : String) : Bool := n.lexemes.head? == some (.identifier s)

/-- an `if` or a `while`, or a statement that is not taken for one -/
def standsClear (n : Node) : Bool := n.is .conditional || n.is .loop || !(n.beginsWith "if" || n.beginsWith "while")

mutual

/-- do the statements of all blocks in the tree stand clear -/
def blocksClear : Node → Bool
  | leaf _ _ => true
  | list kind children => (kind != .block || children.all standsClear) && allBlocksClear children

def allBlocksClear : List Node → Bool
  | [] => true
  | n :: more => n.blocksClear && allBlocksClear more

end

/-- a whole statement that is not taken for another one, nor is any in its blocks -/
def isClear (l : Level) (n : Node) : Bool :=
  n.blocksClear && (n.is .definition || n.standsClear && !(l.hasFunctions && n.beginsWith "def"))

theorem allBlocksClear_eq (ns : List Node) : allBlocksClear ns = ns.all blocksClear := by
  induction ns with
  | nil => rfl
  | cons n more ih => rw [allBlocksClear, ih, List.all_cons]

/-- the blocks in the children of a clear tree are clear -/
theorem blocksClear_child {kind : ListKind} {ns : List Node} (h : (list kind ns).blocksClear = true) :
    ∀ n ∈ ns, n.blocksClear = true := by
  rw [blocksClear, allBlocksClear_eq, Bool.and_eq_true] at h
  exact List.all_eq_true.1 h.2

theorem blocksClear_block {ns : List Node} (h : (list .block ns).blocksClear = true) :
    ∀ n ∈ ns, n.standsClear = true := by
  rw [blocksClear, Bool.and_eq_true] at h
  exact List.all_eq_true.1 h.1

end Node

/-! ## First tokens -/

section First

variable {l : Level} {Q : Token → Prop} {n : Node}

theorem opens_mark {s : String} (hs : s ∈ ["(", "-", "fun", "if", "while"]) (line : Nat) :
    opens l ⟨line, .identifier s⟩ = true := by
  simp only [List.mem_cons, List.not_mem_nil, or_false] at hs
  rcases hs with rfl | rfl | rfl | rfl | rfl <;> cases l <;> rfl

/-- an expression begins with a token that opens one, and with a minus sign only if it is one with a sign -/
theorem Fits.value_head {b : Bool} (h : Fits l Q (.value b) n) : ∃ x more, n.lexemes = x :: more ∧
    (∀ line, opens l ⟨line, x⟩ = true) ∧ (n.is .negative = false → b = false → x ≠ .identifier "-") := by
  generalize hr : Role.value b = r at h
  induction h generalizing b with
  | number _ => exact ⟨_, _, Node.lexemes_leaf _ _, fun _ => rfl, fun _ _ he => by cases he⟩
  | string _ => exact ⟨_, _, Node.lexemes_leaf _ _, fun _ => rfl, fun _ _ he => by cases he⟩
  | name _ hn hm =>
    cases hr
    refine ⟨_, _, Node.lexemes_leaf _ _, fun _ => by simpa [opens] using hn.unreserved, fun _ hb he => hm hb ?_⟩
    cases he
    rfl
  | negative _ _ => exact ⟨_, _, Node.lexemes_negative _, opens_mark (by decide), fun hn => by cases hn⟩
  | binary _ _ _ _ _ _ => exact ⟨_, _, Node.lexemes_binary _ _ _, opens_mark (by decide), fun _ _ => by decide⟩
  | @primary _ operand calls _ _ _ _ ih _ =>
    cases hr
    rw [Node.lexemes_primary]
    by_cases hb : operand.isBareOperand = true
    · obtain ⟨x, more, hx, ho, hm⟩ := ih rfl
      have hn : operand.is .negative = false := by
        cases operand with
        | leaf _ _ => rfl
        | list k _ => cases k <;> first | rfl | cases hb
      rw [Node.operandLexemes_bare hb, hx]
      exact ⟨x, _, rfl, ho, fun _ => hm hn⟩
    · rw [Node.operandLexemes_wrapped (by simpa using hb)]
      exact ⟨_, _, rfl, opens_mark (by decide), fun _ _ => by decide⟩
  | closure _ _ _ _ _ => exact ⟨_, _, Node.lexemes_closure _ _, opens_mark (by decide), fun _ _ => by decide⟩
  | _ => cases hr

theorem Fits.statement_head (h : Fits l Q .statement n) : ∃ x more, n.lexemes = x :: more ∧
    ∀ line, opens l ⟨line, x⟩ = true := by
  cases h with
  | simple h =>
    obtain ⟨x, more, hx, ho, -⟩ := h.value_head
    exact ⟨x, more, hx, ho⟩
  | conditional _ _ => exact ⟨_, _, Node.lexemes_conditional _ _, opens_mark (by decide)⟩
  | otherwise _ _ _ => exact ⟨_, _, Node.lexemes_otherwise _ _ _, opens_mark (by decide)⟩
  | loop _ _ => exact ⟨_, _, Node.lexemes_loop _ _, opens_mark (by decide)⟩

theorem Fits.program_head (h : Fits l Q .program n) (he : n.is .empty = false) : n.lexemes ≠ [] := by
  cases h with
  | definition _ _ _ _ _ => rw [Node.lexemes_definition]; exact List.cons_ne_nil _ _
  | statement h =>
    obtain ⟨x, more, hx, -⟩ := h.statement_head
    rw [hx]
    exact List.cons_ne_nil _ _
  | nothing => cases he

end First

/-! ## Trees, role by role -/

/-- the tokens read as the tree, before calls whatever they are: its parts come before those of the calls -/
def ReadsAsOperand (l : Level) (ls : List Lexeme) (n : Node) : Prop :=
  ∀ line rest ms left, Reads l (.elements (callElements l)) rest ms left →
    Reads l (.elements (elementsAt l Place.primary)) (tokensOn line ls ++ rest) ((n.reread line).parts ++ ms) left

/-- the tokens read as the tree by the rule, whatever follows as long as it has the property -/
def ReadsAs (l : Level) (id : RuleId) (n : Node) (P : List Token → Prop) : Prop :=
  ∀ line rest, P rest → Reads l (.rule id) (tokensOn line n.lexemes ++ rest) [n.reread line] rest

/-- what it means to read a tree in a role -/
def Rereads (l : Level) (n : Node) : Role → Prop
  | .value b => (n.is .negative = false → ReadsAsOperand l n.lexemes n) ∧
    (b = false ∨ n.isBareOperand = false → ReadsAs l Place.factor n (Uncalled l))
  | .arguments => l.hasFunctions = true → ReadsAs l Place.call n fun _ => True
  | .parameter => ReadsAs l Place.param n fun _ => True
  | .parameters => l.hasFunctions = true → ReadsAs l Place.parameters n fun _ => True
  | .block => ReadsAs l Place.block n fun _ => True
  | .statement => n.standsClear = true → ReadsAs l Place.statement n Finishes
  | .program => n.isClear l = true → n.is .empty = false → ∀ line rest,
    Reads l (.rule Place.program) (tokensOn line n.lexemes ++ Token.lineEnd line :: rest) [n.reread line] rest

section Roles

variable {l : Level} {Q : Token → Prop} {n : Node}

theorem bare_not_negative (h : n.isBareOperand = true) : n.is .negative = false := by
  cases n with
  | leaf _ _ => rfl
  | list k _ => cases k <;> first | rfl | cases h

theorem wrapped_not_primary (h : n.isBareOperand = false) : n.is .primary = false := by
  cases n with
  | leaf _ _ => rfl
  | list k _ => cases k <;> first | rfl | cases h

/-- an expression is read up to a mark that closes it -/
theorem Rereads.expression (h : Rereads l n (.value false)) : ReadsAs l Place.expression n (Closes l) :=
  fun line rest hr => reads_expression (h.2 (.inl rfl) line rest hr.uncalled) hr.no_operator

/-- an operand in its place, in parentheses or not -/
theorem Rereads.operand {b : Bool} (h : Rereads l n (.value b)) : ReadsAsOperand l n.operandLexemes n := by
  intro line rest ms left hcalls
  by_cases hb : n.isBareOperand = true
  · rw [Node.operandLexemes_bare hb]
    exact h.1 (bare_not_negative hb) line rest ms left hcalls
  · have hb : n.isBareOperand = false := by simpa using hb
    rw [Node.operandLexemes_wrapped hb, tokensOn_inParens, Node.parts_single (by simpa using wrapped_not_primary hb)]
    have hcloses : Closes l (⟨line, .identifier ")"⟩ :: rest) := closes_mark (by decide)
    have hfactor := h.2 (.inr hb) line _ hcloses.uncalled
    exact reads_head (operandRule_group l line) (reads_grouped (reads_expression hfactor hcloses.no_operator)) hcalls

/-- an operand with calls has at least one -/
theorem Fits.build_parts {b : Bool} (h : Fits l Q (.value b) n) (line : Nat) :
    ListKind.primary.build (n.reread line).parts = n.reread line := by
  refine Node.build_parts fun hp => ?_
  rw [Node.is_reread] at hp
  cases h with
  | @primary _ operand calls _ _ hc _ =>
    rw [Node.reread_primary, Node.children, List.length_append, List.length_map]
    have h1 := List.length_pos_iff.2 (Node.parts_ne_nil (operand.reread line))
    have h2 := List.length_pos_iff.2 hc
    omega
  | _ => cases hp

theorem ReadsAsOperand.primary {b : Bool} {ls : List Lexeme} (h : ReadsAsOperand l ls n) (hn : Fits l Q (.value b) n)
    (line : Nat) {rest : List Token} (hr : Uncalled l rest) :
    Reads l (.rule Place.primary) (tokensOn line ls ++ rest) [n.reread line] rest := by
  have hread := reads_primary (h line rest [] rest (reads_no_calls hr))
  rwa [List.append_nil, hn.build_parts] at hread

/-- an expression without a sign that is read as an operand -/
theorem ReadsAsOperand.rereads {b : Bool} (h : ReadsAsOperand l n.lexemes n) (hn : Fits l Q (.value b) n)
    (hs : n.is .negative = false) (hw : n.isBareOperand = false → ∃ more, n.lexemes = .identifier "fun" :: more) :
    Rereads l n (.value b) := by
  refine ⟨fun _ => h, fun hb line rest hr => reads_factor_primary ?_ ?_ (h.primary hn line hr)⟩
  · obtain ⟨x, more, hx, ho, -⟩ := hn.value_head
    rw [hx]
    exact ho line
  · rcases hb with hb | hb
    · obtain ⟨x, more, hx, -, hm⟩ := hn.value_head
      rw [hx]
      have := hm hs hb
      cases x <;> first | rfl | simpa [Token.isLiteral] using this
    · obtain ⟨more, hx⟩ := hw hb
      rw [hx]
      rfl

/-- a single token -/
theorem leaf_rereads {b : Bool} {kind : LeafKind} {k : Nat} {x : Lexeme} {id : RuleId}
    (hn : Fits l Q (.value b) (.leaf kind ⟨k, x⟩)) (hc : ∀ line, operandRule l ⟨line, x⟩ = some id)
    (hx : ∀ line rest, Reads l (.rule id) (⟨line, x⟩ :: rest) [.leaf kind ⟨line, x⟩] rest) :
    Rereads l (.leaf kind ⟨k, x⟩) (.value b) := by
  have h : ReadsAsOperand l [x] (.leaf kind ⟨k, x⟩) := by
    intro line rest ms left hcalls
    rw [Node.reread_leaf]
    exact reads_head (hc line) (hx line rest) hcalls
  exact h.rereads hn rfl fun hb => by cases hb

theorem negative_rereads {b c : Bool} (hn : Fits l Q (.value c) n) (h : Rereads l n (.value c)) :
    Rereads l (.list .negative [n]) (.value b) := by
  refine ⟨nofun, fun _ line rest hr => ?_⟩
  rw [Node.lexemes_negative, Node.reread_list .negative (by decide)]
  exact reads_factor_negative (h.operand.primary hn line hr)

theorem binary_rereads {b : Bool} {left right : Node} {k : Nat} {op : String} {p : Precedence}
    (hn : Fits l Q (.value b) (.list .binary [left, .leaf .mark ⟨k, .identifier op⟩, right]))
    (hop : OperatorTable.standard.get? op = some p) (ha : Rereads l left (.value false))
    (hb : Rereads l right (.value false)) :
    Rereads l (.list .binary [left, .leaf .mark ⟨k, .identifier op⟩, right]) (.value b) := by
  have hcall : op ≠ "(" := by
    rintro rfl
    cases hop
  refine ReadsAsOperand.rereads (fun line rest ms after hcalls => ?_) hn rfl fun hb => by cases hb
  have hcloses : Closes l (⟨line, .identifier ")"⟩ :: rest) := closes_mark (by decide)
  have hleft := ha.2 (.inl rfl) line
    (⟨line, .identifier op⟩ :: (tokensOn line right.lexemes ++ ⟨line, .identifier ")"⟩ :: rest))
    fun _ => by simpa [Token.isLiteral] using hcall
  have hright := hb.2 (.inl rfl) line _ hcloses.uncalled
  rw [Node.lexemes_binary, tokensOn_inParens, Node.reread_list .binary (by decide)]
  simp only [tokensOn_append, List.append_assoc, Node.lexemes_leaf, tokensOn_cons, List.cons_append, List.nil_append,
    List.map_cons, List.map_nil, Node.reread_leaf]
  exact reads_head (operandRule_group l line) (reads_grouped (reads_binary hop hleft hright hcloses.no_operator)) hcalls

/-- calls one after the other -/
theorem calls_reread {calls : List Node} (hf : l.hasFunctions = true) (hn : ∀ c ∈ calls, Fits l Q .arguments c)
    (h : ∀ c ∈ calls, ReadsAs l Place.call c fun _ => True) (line : Nat) {rest left : List Token} {ms : List Node}
    (hrest : Reads l (.elements (callElements l)) rest ms left) :
    Reads l (.elements (callElements l)) (tokensOn line (calls.map Node.lexemes).flatten ++ rest)
      (calls.map (Node.reread line) ++ ms) left := by
  induction calls with
  | nil => exact hrest
  | cons c more ih =>
    obtain ⟨hc, hmore⟩ := List.forall_mem_cons.1 hn
    obtain ⟨hrc, hrmore⟩ := List.forall_mem_cons.1 h
    have hread := hrc line (tokensOn line (more.map Node.lexemes).flatten ++ rest) trivial
    rw [List.map_cons, List.flatten_cons, tokensOn_append, List.append_assoc]
    cases hc with
    | arguments hargs =>
      rw [Node.lexemes_arguments, tokensOn_inParens] at hread ⊢
      exact reads_call_cons hf ((Fits.arguments (l := l) hargs).reread_not_vacuous line) hread (ih hmore hrmore)

theorem primary_rereads {b : Bool} {operand : Node} {calls : List Node} (hf : l.hasFunctions = true)
    (hn : Fits l Q (.value b) (.list .primary (operand :: calls))) (hc : ∀ c ∈ calls, Fits l Q .arguments c)
    (ho : Rereads l operand (.value b)) (hcalls : ∀ c ∈ calls, ReadsAs l Place.call c fun _ => True) :
    Rereads l (.list .primary (operand :: calls)) (.value b) := by
  refine ReadsAsOperand.rereads (fun line rest ms left hrest => ?_) hn rfl fun hb => by cases hb
  have hread := ho.operand line _ _ _ (calls_reread hf hc hcalls line hrest)
  rw [Node.lexemes_primary, tokensOn_append, List.append_assoc, Node.reread_primary]
  obtain ⟨a, more, ha⟩ := List.exists_cons_of_ne_nil (Node.parts_ne_nil (operand.reread line))
  have hparts : (Node.list .primary (a :: more ++ calls.map (Node.reread line))).parts =
      a :: more ++ calls.map (Node.reread line) := rfl
  rw [ha] at hread ⊢
  rwa [hparts, List.append_assoc]

theorem closure_rereads {b : Bool} {params body : Node} (hc : l.hasClosures = true)
    (hn : Fits l Q (.value b) (.list .closure [params, body])) (hp : ReadsAs l Place.parameters params fun _ => True)
    (hb : ReadsAs l Place.block body fun _ => True) : Rereads l (.list .closure [params, body]) (.value b) := by
  refine ReadsAsOperand.rereads (fun line rest ms left hrest => ?_) hn rfl fun _ => ⟨_, Node.lexemes_closure _ _⟩
  have hclosure : Reads l (.rule Place.closure)
      (⟨line, .identifier "fun"⟩ :: (tokensOn line params.lexemes ++ (tokensOn line body.lexemes ++ rest)))
      [.list .closure [params.reread line, body.reread line]] rest :=
    .build ⟨rfl, rfl⟩ (.literal rfl (.call (hp line _ trivial) (.call (hb line _ trivial) .nil))) rfl
  rw [Node.lexemes_closure, tokensOn_cons, tokensOn_append, List.cons_append, List.append_assoc,
    Node.reread_list .closure (by decide)]
  exact reads_head (operandRule_closure hc) hclosure hrest

theorem arguments_reread {ns : List Node} (hf : l.hasFunctions = true) (hn : ∀ n ∈ ns, Fits l Q (.value false) n)
    (h : ∀ n ∈ ns, Rereads l n (.value false)) : ReadsAs l Place.call (.list .arguments ns) fun _ => True := by
  intro line rest _
  have hend : opens l ⟨line, .identifier ")"⟩ = false := by cases l <;> first | rfl | cases hf
  rw [Node.lexemes_arguments, Node.reread_list .arguments (by decide)]
  refine (bracketed_arguments l).reads (P := Closes l) (fun s ts hs => closes_mark ?_) hend fun n hm => ?_
  · rcases hs with rfl | rfl <;> decide
  · refine ⟨(hn n hm).reread_not_vacuous line, fun rest hr => ⟨?_, (h n hm).expression line rest hr⟩⟩
    obtain ⟨x, more, hx, ho, -⟩ := (hn n hm).value_head
    rw [hx]
    exact ho line

theorem parameters_reread {ns : List Node} (hf : l.hasFunctions = true) (hn : ∀ n ∈ ns, Fits l Q .parameter n)
    (h : ∀ n ∈ ns, ReadsAs l Place.param n fun _ => True) :
    ReadsAs l Place.parameters (.list .parameters ns) fun _ => True := by
  intro line rest _
  have hend : (TokenClass.identifier (reservedTexts l)).accepts ⟨line, .identifier ")"⟩ = false := by
    cases l <;> first | rfl | cases hf
  rw [Node.lexemes_parameters, Node.reread_list .parameters (by decide)]
  refine (bracketed_parameters l).reads (P := fun _ => True) (fun _ _ _ => trivial) hend fun n hm => ?_
  refine ⟨(hn n hm).reread_not_vacuous line, fun rest _ => ⟨?_, h n hm line rest trivial⟩⟩
  cases hn n hm with
  | parameter _ hs => simpa [TokenClass.accepts] using hs

theorem block_rereads {ns : List Node} (hn : ∀ n ∈ ns, Fits l Q .statement n)
    (h : ∀ n ∈ ns, ReadsAs l Place.statement n Finishes) : ReadsAs l Place.block (.list .block ns) fun _ => True := by
  intro line rest _
  rw [Node.lexemes_block, Node.reread_list .block (by decide)]
  refine reads_block fun n hm => ⟨(hn n hm).reread_not_vacuous line, fun rest => ?_, h n hm line⟩
  obtain ⟨x, more, hx, ho⟩ := (hn n hm).statement_head
  rw [hx]
  exact ho line

/-- a simple statement that stands clear is no other one -/
theorem Fits.simple_clear (h : Fits l Q (.value false) n) (hc : n.standsClear = true) :
    n.beginsWith "if" = false ∧ n.beginsWith "while" = false := by
  have hkind : n.is .conditional = false ∧ n.is .loop = false := by cases h <;> exact ⟨rfl, rfl⟩
  simpa [Node.standsClear, hkind] using hc

/-- the first token of a text that does not begin with a word -/
theorem front_not_word {s : String} (h : n.beginsWith s = false) (hne : n.lexemes ≠ []) (line : Nat) (rest : List Token)
    (hs : s ≠ Token.lineEndText) : (front (tokensOn line n.lexemes ++ rest)).isLiteral s = false := by
  unfold Node.beginsWith at h
  cases hn : n.lexemes with
  | nil => exact absurd hn hne
  | cons x more =>
    rw [hn] at h
    cases x with
    | identifier u => simpa [Token.isLiteral] using h
    | lineEnd => simpa [Token.isLiteral] using hs.symm
    | _ => rfl

theorem simple_rereads (hn : Fits l Q (.value false) n) (h : Rereads l n (.value false)) (hc : n.standsClear = true) :
    ReadsAs l Place.statement n Finishes := by
  intro line rest hr
  obtain ⟨hif, hwhile⟩ := hn.simple_clear hc
  obtain ⟨x, more, hx, ho, -⟩ := hn.value_head
  have hne : n.lexemes ≠ [] := by simp [hx]
  have hopens : opens l (front (tokensOn line n.lexemes ++ rest)) = true := by
    rw [hx]
    exact ho line
  refine reads_statement (reads_simple (h.expression line rest (hr.closed l).1) hr) ?_
  rw [chosen_statement, front_not_word hif hne line rest (by decide), front_not_word hwhile hne line rest (by decide),
    hopens]
  rfl

/-- a condition before its block -/
theorem condition_reads {condition body : Node} (hc : Rereads l condition (.value false)) (hb : Fits l Q .block body)
    (line : Nat) (rest : List Token) :
    Reads l (.rule Place.expression) (tokensOn line condition.lexemes ++ (tokensOn line body.lexemes ++ rest))
      [condition.reread line] (tokensOn line body.lexemes ++ rest) := by
  refine hc.expression line _ ?_
  cases hb
  rw [Node.lexemes_block, tokensOn_inBraces]
  exact closes_mark (by decide)

theorem conditional_rereads {condition body : Node} (hn : Fits l Q .block body)
    (hc : Rereads l condition (.value false)) (hb : ReadsAs l Place.block body fun _ => True) :
    ReadsAs l Place.statement (.list .conditional [condition, body]) Finishes := by
  intro line rest hr
  rw [Node.lexemes_conditional, tokensOn_cons, tokensOn_append, List.cons_append, List.append_assoc,
    Node.reread_list .conditional (by decide)]
  refine reads_statement (reads_conditional (condition_reads hc hn line rest) (hb line rest trivial) (hr.closed l).2.2) ?_
  rw [chosen_statement]
  rfl

theorem otherwise_rereads {condition body other : Node} (hn : Fits l Q .block body) (ho : Fits l Q .block other)
    (hc : Rereads l condition (.value false)) (hb : ReadsAs l Place.block body fun _ => True)
    (h : ReadsAs l Place.block other fun _ => True) :
    ReadsAs l Place.statement (.list .conditional [condition, body, other]) Finishes := by
  intro line rest hr
  have hbody := hb line (⟨line, .identifier "else"⟩ :: (tokensOn line other.lexemes ++ rest)) trivial
  rw [Node.lexemes_otherwise, Node.reread_list .conditional (by decide)]
  simp only [tokensOn_cons, tokensOn_append, List.cons_append, List.append_assoc]
  refine reads_statement (reads_otherwise (condition_reads hc hn line _) hbody (h line rest trivial)
    (ho.reread_not_vacuous line)) ?_
  rw [chosen_statement]
  rfl

theorem loop_rereads {condition body : Node} (hn : Fits l Q .block body)
    (hc : Rereads l condition (.value false)) (hb : ReadsAs l Place.block body fun _ => True) :
    ReadsAs l Place.statement (.list .loop [condition, body]) Finishes := by
  intro line rest hr
  rw [Node.lexemes_loop, tokensOn_cons, tokensOn_append, List.cons_append, List.append_assoc,
    Node.reread_list .loop (by decide)]
  refine reads_statement (reads_loop (condition_reads hc hn line rest) (hb line rest trivial)) ?_
  rw [chosen_statement]
  rfl

/-- a definition or a statement, and the end of its line -/
theorem reads_program {id : RuleId} {ts rest : List Token} {line : Nat}
    (h : Reads l (.rule id) ts [n] (Token.lineEnd line :: rest))
    (hc : l.grammar.chosen (front ts) (programRules l) = some (some id)) :
    Reads l (.rule Place.program) ts [n] rest :=
  .collapse ⟨rfl, rfl⟩ (.choice hc h (.literal rfl .nil))

theorem definition_rereads {k : Nat} {s : String} {params body : Node} (hf : l.hasFunctions = true)
    (hs : s ∉ reservedTexts l) (hp : ReadsAs l Place.parameters params fun _ => True)
    (hb : ReadsAs l Place.block body fun _ => True) :
    Rereads l (.list .definition [.leaf .mark ⟨k, .identifier s⟩, params, body]) .program := by
  intro _ _ line rest
  have hname : (TokenClass.identifier (reservedTexts l)).accepts ⟨line, .identifier s⟩ = true := by
    simpa [TokenClass.accepts] using hs
  rw [Node.lexemes_definition, Node.reread_list .definition (by decide)]
  simp only [tokensOn_cons, tokensOn_append, List.cons_append, List.append_assoc, Node.lexemes_leaf,
    List.nil_append, List.map_cons, List.map_nil, Node.reread_leaf]
  have hbody := Reads.call (hp line _ trivial) (.call (hb line (Token.lineEnd line :: rest) trivial) .nil)
  have hread : Reads l (.rule Place.definition) _ [.list .definition _] _ :=
    .build ⟨rfl, rfl⟩ (.literal (t := ⟨line, .identifier "def"⟩) rfl (.token hname hbody)) rfl
  refine reads_program hread ?_
  rw [chosen_program, hf]
  rfl

theorem statement_rereads (hn : Fits l Q .statement n) (h : n.standsClear = true → ReadsAs l Place.statement n Finishes) :
    Rereads l n .program := by
  intro hc _ line rest
  obtain ⟨x, more, hx, ho⟩ := hn.statement_head
  have hne : n.lexemes ≠ [] := by simp [hx]
  have hkind : n.is .definition = false := by
    cases hn with
    | simple h => cases h <;> rfl
    | _ => rfl
  simp only [Node.isClear, hkind, Bool.false_or, Bool.and_eq_true, Bool.not_eq_true'] at hc
  obtain ⟨-, hstands, hdef⟩ := hc
  refine reads_program (h hstands line _ (.tail _ (.tail _ (.head _)))) ?_
  have hopens : opens l (front (tokensOn line n.lexemes ++ Token.lineEnd line :: rest)) = true := by
    rw [hx]
    exact ho line
  have hword : (l.hasFunctions && (front (tokensOn line n.lexemes ++ Token.lineEnd line :: rest)).isLiteral "def") =
      false := by
    cases hf : l.hasFunctions with
    | false => rfl
    | true =>
      rw [hf] at hdef
      exact front_not_word hdef hne line _ (by decide)
  rw [chosen_program, hword, hopens]
  rfl

end Roles

/-- **Clear trees are read again.** The lexemes of a tree of the language read as the tree, in whatever role it has. -/
theorem Fits.rereads {l : Level} {Q : Token → Prop} {r : Role} {n : Node} (h : Fits l Q r n)
    (hc : n.blocksClear = true) : Rereads l n r := by
  induction h with
  | number hq =>
    exact leaf_rereads (.number hq) (fun line => by cases l <;> rfl) fun _ _ => .collapse ⟨rfl, rfl⟩ (.token rfl .nil)
  | string hq =>
    exact leaf_rereads (.string hq) (fun line => by cases l <;> rfl) fun _ _ => .collapse ⟨rfl, rfl⟩ (.token rfl .nil)
  | name hq hn hm =>
    refine leaf_rereads (.name hq hn hm) (fun _ => operandRule_name hn) fun _ _ => .collapse ⟨rfl, rfl⟩ (.token ?_ .nil)
    simpa [TokenClass.accepts] using hn.unreserved
  | negative h ih => exact negative_rereads h (ih (Node.blocksClear_child hc _ List.mem_cons_self))
  | binary ha hb hq hp iha ihb =>
    have hchild := Node.blocksClear_child hc
    exact binary_rereads (.binary ha hb hq hp) hp (iha (hchild _ (by simp))) (ihb (hchild _ (by simp)))
  | primary hf h hne hcs ih ihs =>
    obtain ⟨hoperand, hcalls⟩ := List.forall_mem_cons.1 (Node.blocksClear_child hc)
    exact primary_rereads hf (.primary hf h hne hcs) hcs (ih hoperand) fun c hm => ihs c hm (hcalls c hm) hf
  | closure hcl hp hb ihp ihb =>
    have hchild := Node.blocksClear_child hc
    have hf : l.hasFunctions = true := by cases l <;> first | rfl | cases hcl
    exact closure_rereads hcl (.closure hcl hp hb) (ihp (hchild _ (by simp)) hf) (ihb (hchild _ (by simp)))
  | arguments hn ih =>
    exact fun hf => arguments_reread hf hn fun n hm => ih n hm (Node.blocksClear_child hc n hm)
  | parameter _ hs =>
    intro line rest _
    rw [Node.reread_leaf]
    refine .collapse ⟨rfl, rfl⟩ (.token ?_ .nil)
    simpa [TokenClass.accepts] using hs
  | parameters hn ih =>
    exact fun hf => parameters_reread hf hn fun n hm => ih n hm (Node.blocksClear_child hc n hm)
  | block hn ih =>
    refine block_rereads hn fun n hm => ?_
    exact ih n hm (Node.blocksClear_child hc n hm) (Node.blocksClear_block hc n hm)
  | simple h ih => exact simple_rereads h (ih hc)
  | conditional _ hb ihc ihb =>
    have hchild := Node.blocksClear_child hc
    exact fun _ => conditional_rereads hb (ihc (hchild _ (by simp))) (ihb (hchild _ (by simp)))
  | otherwise _ hb ho ihc ihb iho =>
    have hchild := Node.blocksClear_child hc
    exact fun _ => otherwise_rereads hb ho (ihc (hchild _ (by simp))) (ihb (hchild _ (by simp)))
      (iho (hchild _ (by simp)))
  | loop _ hb ihc ihb =>
    have hchild := Node.blocksClear_child hc
    exact fun _ => loop_rereads hb (ihc (hchild _ (by simp))) (ihb (hchild _ (by simp)))
  | definition hf _ hs _ _ ihp ihb =>
    have hchild := Node.blocksClear_child hc
    exact definition_rereads hf hs (ihp (hchild _ (by simp)) hf) (ihb (hchild _ (by simp)))
  | statement h ih => exact statement_rereads h (ih hc)
  | nothing =>
    intro _ he
    cases he

/-! ## Programs -/

/-- the statements that are read from a program with one statement a line -/
def rereadFrom (line : Nat) : List Node → List Node
  | [] => []
  | n :: more => n.reread line :: rereadFrom (line + 1) more

/-- a statement that is read, or that nests too deep -/
theorem parseStatement_of_reads {l : Level} {s : TokenStream} {n : Node} {rest : List Token} (hc : s.Clean)
    (h : Reads l (.rule Place.program) s.tokens [n] rest) :
    (∃ s', (Language.ofLevel l).parseStatement.run s = .ok n s' ∧ s'.tokens = rest ∧ s'.Clean) ∨
      ∃ line s', (Language.ofLevel l).parseStatement.run s = .error (.raised (.tooDeep line)) s' := by
  obtain ⟨depth, h⟩ := h
  have hlen := s.length_tokens_le
  have h : Derives l.grammar depth (.rule Place.program) (s.tokens ++ []) [n] rest := by rwa [List.append_nil]
  have hf : Follows (maxNesting < depth) [] [n] rest
      (((Task.rule Place.program).run l.grammar (s.size + 1) maxNesting (s.size + 1)).run (ofTokens s.tokens)) :=
    h.follows (Language.steady l) trivial (by omega) (by omega)
  have hf := follows_one hf
  rw [Language.parseStatement, Language.program_eq]
  generalize hr : (l.grammar.parseRule (s.size + 1) maxNesting Place.program).run (ofTokens s.tokens) = r at hf
  cases hf with
  | same left hl =>
    rw [List.append_nil] at hl
    exact .inl (parse_ok hc (hl ▸ hr))
  | @deep line _ _ =>
    obtain ⟨s', hs⟩ := parse_error hc hr
    exact .inr ⟨line, s', hs⟩
  | starved hne _ => exact absurd rfl hne

/-- **Statements that are written one a line** parse as what is read from each of them, up to one that nests too deep. -/
theorem parseStatements_written {l : Level} {ns : List Node} {s : TokenStream} {line budget : Nat} (hc : s.Clean)
    (hu : Unended s.tokens) (hs : s.tokens = writtenFrom line ns) (he : ∀ n ∈ ns, n.is .empty = false)
    (hn : ∀ n ∈ ns, ∀ line rest, Reads l (.rule Place.program)
      (tokensOn line n.lexemes ++ Token.lineEnd line :: rest) [n.reread line] rest) (hb : ns.length < budget) :
    (∃ s', ((Language.ofLevel l).parseStatements budget).run s = .ok (rereadFrom line ns) s') ∨
      ∃ k s', ((Language.ofLevel l).parseStatements budget).run s = .error (.raised (.tooDeep k)) s' := by
  induction ns generalizing s line budget with
  | nil =>
    obtain ⟨k, rfl⟩ : ∃ k, budget = k + 1 := ⟨budget - 1, by omega⟩
    obtain ⟨s₁, h1, -, -⟩ := atEnd_of_clean hc
    rw [(isInputEnd_front hu).2 hs] at h1
    refine .inl ⟨s₁, ?_⟩
    rw [Language.parseStatements, EStateM.run_bind, h1]
    rfl
  | cons n more ih =>
    rw [List.length_cons] at hb
    obtain ⟨k, rfl⟩ : ∃ k, budget = k + 1 := ⟨budget - 1, by omega⟩
    obtain ⟨hen, hemore⟩ := List.forall_mem_cons.1 he
    obtain ⟨hrn, hrmore⟩ := List.forall_mem_cons.1 hn
    obtain ⟨s₁, h1, hs1, hc1⟩ := atEnd_of_clean hc
    have hread : Reads l (.rule Place.program) s₁.tokens [n.reread line] (writtenFrom (line + 1) more) := by
      rw [hs1, hs]
      exact hrn line _
    have hne : (front s.tokens).isInputEnd = false := by
      rw [Bool.eq_false_iff, ne_eq, isInputEnd_front hu, hs, writtenFrom]
      exact List.append_ne_nil_of_right_ne_nil _ (List.cons_ne_nil _ _)
    rw [hne] at h1
    rw [Language.parseStatements, EStateM.run_bind, h1]
    simp only [Bool.false_eq_true, if_false, EStateM.run_bind]
    rcases parseStatement_of_reads hc1 hread with ⟨s₂, h2, hs2, hc2⟩ | ⟨deep, s₂, h2⟩
    · have hu2 : Unended s₂.tokens := by
        obtain ⟨_, hd⟩ := hread
        rw [hs2]
        exact (hs1 ▸ hu).suffix hd.suffix
      rw [h2]
      rcases ih hc2 hu2 hs2 hemore hrmore (show more.length < k by omega) with ⟨s₃, h3⟩ | ⟨deep, s₃, h3⟩
      · refine .inl ⟨s₃, ?_⟩
        simp only [h3, Node.is_reread, hen]
        rfl
      · exact .inr ⟨deep, s₃, by simp only [h3]⟩
    · exact .inr ⟨deep, s₂, by rw [h2]⟩

theorem length_le_written (line : Nat) (ns : List Node) : ns.length ≤ (writtenFrom line ns).length := by
  induction ns generalizing line with
  | nil => exact Nat.le_refl 0
  | cons n more ih =>
    have := ih (line + 1)
    simp only [writtenFrom, List.length_append, List.length_cons]
    omega

/-- **A rendered program parses again**, as its statements merged and one a line, unless it nests too deep. -/
theorem parseProgram_rendered {l : Level} {ns : List Node} (hn : ∀ n ∈ ns, Fits l Token.Scanned .program n)
    (he : ∀ n ∈ ns, n.is .empty = false) (hc : ∀ n ∈ ns, n.isClear l = true) (hq : ∀ n ∈ ns, QuoteSafe n.lexemes) :
    parseProgram l (Node.programSource ns) = .ok (rereadFrom 1 ns) ∨
      ∃ line, parseProgram l (Node.programSource ns) = .error (.raised (.tooDeep line)) := by
  have hlegible : ∀ n ∈ ns, Legible n := fun n hm => ⟨(hn n hm).writes, hq n hm, (hn n hm).program_head (he n hm)⟩
  have hreads : ∀ n ∈ ns, ∀ line rest, Reads l (.rule Place.program)
      (tokensOn line n.lexemes ++ Token.lineEnd line :: rest) [n.reread line] rest := by
    intro n hm
    have hblocks : n.blocksClear = true := by
      have := hc n hm
      rw [Node.isClear, Bool.and_eq_true] at this
      exact this.1
    exact (hn n hm).rereads hblocks (hc n hm) (he n hm)
  obtain ⟨hclean, htokens⟩ := ofSource_programSource hlegible he
  have hlen := (ofSource (Node.programSource ns)).length_tokens_le
  have hwritten := length_le_written 1 ns
  rw [htokens] at hlen
  have hb : ns.length < (ofSource (Node.programSource ns)).size + 1 := by omega
  rw [parseProgram_eq]
  rcases parseStatements_written hclean (unended_ofSource _) htokens he hreads hb with ⟨s', h⟩ | ⟨line, s', h⟩
  · rw [h]
    exact .inl rfl
  · rw [h]
    exact .inr ⟨line, rfl⟩

end Stone
