/-
The rules of the language, each at its place in the table, and the tokens that they begin with. The table itself is made
step by step; `rule_eq` says what is in it in the end. A token opens an expression if it is a number, a string or an
identifier that is not reserved, and all alternatives of the grammar are told apart by their first token:
`chosen_factor`, `chosen_primary`, `chosen_statement` and `chosen_program` say how.
-/
import Stone.Proofs.Replay

namespace Stone

open TokenStream Grammar

/-! ## Places -/

namespace Place

@[match_pattern] abbrev expression : RuleId := 0
@[match_pattern] abbrev primary : RuleId := 1
@[match_pattern] abbrev statement : RuleId := 2
@[match_pattern] abbrev following : RuleId := 3
@[match_pattern] abbrev block : RuleId := 4
@[match_pattern] abbrev param : RuleId := 5
@[match_pattern] abbrev moreParams : RuleId := 6
@[match_pattern] abbrev params : RuleId := 7
@[match_pattern] abbrev noParams : RuleId := 8
@[match_pattern] abbrev parameters : RuleId := 9
@[match_pattern] abbrev definition : RuleId := 10
@[match_pattern] abbrev moreArguments : RuleId := 11
@[match_pattern] abbrev arguments : RuleId := 12
@[match_pattern] abbrev noArguments : RuleId := 13
@[match_pattern] abbrev call : RuleId := 14
@[match_pattern] abbrev closure : RuleId := 15
@[match_pattern] abbrev grouped : RuleId := 16
@[match_pattern] abbrev number : RuleId := 17
@[match_pattern] abbrev name : RuleId := 18
@[match_pattern] abbrev string : RuleId := 19
@[match_pattern] abbrev negative : RuleId := 20
@[match_pattern] abbrev factor : RuleId := 21
@[match_pattern] abbrev otherwise : RuleId := 22
@[match_pattern] abbrev conditional : RuleId := 23
@[match_pattern] abbrev loop : RuleId := 24
@[match_pattern] abbrev simple : RuleId := 25
@[match_pattern] abbrev nothing : RuleId := 26
@[match_pattern] abbrev program : RuleId := 27

end Place

/-- an identifier that is not reserved -/
def Grammar.word (level : Level) (kind : LeafKind) : Element := .token (.identifier (reservedTexts level)) kind

namespace Language

/-- what an operand can be, before its calls -/
def operandRules (level : Level) : List RuleId :=
  (if level.hasClosures then [Place.closure] else []) ++ [Place.grouped, Place.number, Place.name, Place.string]

/-- what stands before a separator -/
def programRules (level : Level) : List RuleId :=
  (if level.hasFunctions then [Place.definition] else []) ++ [Place.statement, Place.nothing]

/-- the elements of the rule at a place -/
def elementsAt (level : Level) : RuleId → List Element
  | Place.expression => [.operators Place.factor .standard .binary]
  | Place.primary => .choice (operandRules level) :: if level.hasFunctions then [.many Place.call] else []
  | Place.statement => [.choice [Place.conditional, Place.loop, Place.simple]]
  | Place.following => [separator, .optional Place.statement]
  | Place.block => [skip "\x7b", .optional Place.statement, .many Place.following, skip "\x7d"]
  | Place.param => [word level .name]
  | Place.moreParams => [skip ",", .rule Place.param]
  | Place.params => [.rule Place.param, .many Place.moreParams]
  | Place.noParams => []
  | Place.parameters => [skip "(", .choice [Place.params, Place.noParams], skip ")"]
  | Place.definition => [skip "def", word level .mark, .rule Place.parameters, .rule Place.block]
  | Place.moreArguments => [skip ",", .rule Place.expression]
  | Place.arguments => [.rule Place.expression, .many Place.moreArguments]
  | Place.noArguments => []
  | Place.call => [skip "(", .choice [Place.arguments, Place.noArguments], skip ")"]
  | Place.closure => [skip "fun", .rule Place.parameters, .rule Place.block]
  | Place.grouped => [skip "(", .rule Place.expression, skip ")"]
  | Place.number => [.token .number .number]
  | Place.name => [word level .name]
  | Place.string => [.token .string .string]
  | Place.negative => [skip "-", .rule Place.primary]
  | Place.factor => [.choice [Place.negative, Place.primary]]
  | Place.otherwise => [skip "else", .rule Place.block]
  | Place.conditional => [skip "if", .rule Place.expression, .rule Place.block, .optional Place.otherwise]
  | Place.loop => [skip "while", .rule Place.expression, .rule Place.block]
  | Place.simple => .rule Place.expression :: if level.hasFunctions then [.optional Place.arguments] else []
  | Place.nothing => []
  | Place.program => [.choice (programRules level), separator]
  | _ => []

/-- how the rule at a place makes its tree -/
def buildAt : RuleId → Build
  | Place.primary => .node .primary
  | Place.block => .node .block
  | Place.params => .node .parameters
  | Place.noParams => .node .parameters
  | Place.definition => .node .definition
  | Place.arguments => .node .arguments
  | Place.noArguments => .node .arguments
  | Place.closure => .node .closure
  | Place.negative => .node .negative
  | Place.conditional => .node .conditional
  | Place.loop => .node .loop
  | Place.simple => .node .primary
  | Place.nothing => .node .empty
  | _ => .collapse

end Language

/-- the rules of a level -/
abbrev Level.grammar (l : Level) : Grammar := (Language.ofLevel l).grammar

namespace Language

theorem size_eq (l : Level) : l.grammar.rules.size = 28 := by
  cases l <;> rfl

theorem program_eq (l : Level) : (ofLevel l).rules.program = Place.program := by
  cases l <;> rfl

/-- the whole table, without the names of the rules -/
theorem table_eq (l : Level) : l.grammar.rules.toList.map (fun r => (r.elements, r.build)) =
    (List.range 28).map fun id => (elementsAt l id, buildAt id) := by
  cases l <;> rfl

theorem rule_eq (l : Level) (id : RuleId) :
    (l.grammar.rule id).elements = elementsAt l id ∧ (l.grammar.rule id).build = buildAt id := by
  have h := congrArg (·[id]?) (table_eq l)
  simp only [List.getElem?_map, Array.getElem?_toList] at h
  rw [Grammar.rule]
  by_cases hid : id < 28
  · rw [List.getElem?_range hid, Option.map_some, Option.map_eq_some_iff] at h
    obtain ⟨r, hr, he⟩ := h
    rw [hr]
    exact Prod.mk.inj he
  · obtain ⟨n, rfl⟩ := Nat.exists_eq_add_of_le' (Nat.le_of_not_lt hid)
    rw [Array.getElem?_eq_none ((size_eq l).trans_le (Nat.le_add_left 28 n))]
    exact ⟨rfl, rfl⟩

theorem elements_eq (l : Level) (id : RuleId) : (l.grammar.rule id).elements = elementsAt l id := (rule_eq l id).1

theorem build_eq (l : Level) (id : RuleId) : (l.grammar.rule id).build = buildAt id := (rule_eq l id).2

/-! ## First tokens -/

/-- can an expression begin with this token -/
def opens (l : Level) (t : Token) : Bool :=
  match t.lexeme with
  | .number _ => true
  | .string _ => true
  | .identifier s => !(reservedTexts l).contains s
  | _ => false

section First

variable {g : Grammar} {t : Token} {k : Nat} {id : RuleId} {more : List Element}

theorem begins_literal {texts : List String} {keep : Bool} (h : (g.rule id).elements = .literal texts keep :: more) :
    g.beginsWithin t (k + 1) id = some (texts.any t.isLiteral) := by
  rw [beginsWithin, h]
  rfl

theorem begins_token {cls : TokenClass} {kind : LeafKind} (h : (g.rule id).elements = .token cls kind :: more) :
    g.beginsWithin t (k + 1) id = some (cls.accepts t) := by
  rw [beginsWithin, h]
  rfl

theorem begins_call {first : RuleId} (h : (g.rule id).elements = .rule first :: more) :
    g.beginsWithin t (k + 1) id = g.beginsWithin t k first := by
  rw [beginsWithin, h]
  rfl

theorem begins_operators {operand : RuleId} {table : OperatorTable} {kind : ListKind}
    (h : (g.rule id).elements = .operators operand table kind :: more) :
    g.beginsWithin t (k + 1) id = g.beginsWithin t k operand := by
  rw [beginsWithin, h]
  rfl

theorem begins_choice {ids : List RuleId} (h : (g.rule id).elements = .choice ids :: more) :
    g.beginsWithin t (k + 1) id = (firstThat (g.beginsWithin t k) ids).map Option.isSome := by
  rw [beginsWithin, h]
  rfl

theorem begins_nothing (h : (g.rule id).elements = []) : g.beginsWithin t (k + 1) id = some true := by
  rw [beginsWithin, h]

theorem firstThat_cons {begins : RuleId → Option Bool} {ids : List RuleId} {b : Bool} (h : begins id = some b) :
    firstThat begins (id :: ids) = if b then some (some id) else firstThat begins ids := by
  rw [firstThat, h]
  cases b <;> rfl

end First

section Level

variable (l : Level) (t : Token)

/-- the alternative for an operand that begins with this token -/
def operandRule : Option RuleId :=
  if l.hasClosures && t.isLiteral "fun" then some Place.closure
  else if t.isLiteral "(" then some Place.grouped
  else
    match t.lexeme with
    | .number _ => some Place.number
    | .string _ => some Place.string
    | .identifier s => if (reservedTexts l).contains s then none else some Place.name
    | _ => none

theorem firstThat_operand (k : Nat) :
    firstThat (l.grammar.beginsWithin t (k + 1)) (operandRules l) = some (operandRule l t) := by
  have h1 : l.grammar.beginsWithin t (k + 1) Place.closure = some (["fun"].any t.isLiteral) :=
    begins_literal (elements_eq l _)
  have h2 : l.grammar.beginsWithin t (k + 1) Place.grouped = some (["("].any t.isLiteral) :=
    begins_literal (elements_eq l _)
  have h3 : l.grammar.beginsWithin t (k + 1) Place.number = some (TokenClass.number.accepts t) :=
    begins_token (elements_eq l _)
  have h4 : l.grammar.beginsWithin t (k + 1) Place.name =
      some ((TokenClass.identifier (reservedTexts l)).accepts t) :=
    begins_token (elements_eq l _)
  have h5 : l.grammar.beginsWithin t (k + 1) Place.string = some (TokenClass.string.accepts t) :=
    begins_token (elements_eq l _)
  have hrest : firstThat (l.grammar.beginsWithin t (k + 1)) [Place.grouped, Place.number, Place.name, Place.string] =
      some (if t.isLiteral "(" then some Place.grouped
        else
          match t.lexeme with
          | .number _ => some Place.number
          | .string _ => some Place.string
          | .identifier s => if (reservedTexts l).contains s then none else some Place.name
          | _ => none) := by
    rw [firstThat_cons h2, firstThat_cons h3, firstThat_cons h4, firstThat_cons h5]
    obtain ⟨line, x⟩ := t
    cases x with
    | identifier s =>
      by_cases hs : s ∈ reservedTexts l <;> by_cases hp : s = "(" <;>
        simp [TokenClass.accepts, firstThat, Token.isLiteral, hs, hp]
    | _ => simp [TokenClass.accepts, firstThat, Token.isLiteral, Token.lineEndText]
  unfold operandRules operandRule
  cases hc : l.hasClosures with
  | false => simpa using hrest
  | true =>
    simp only [if_true, List.cons_append, List.nil_append]
    rw [firstThat_cons h1, hrest]
    cases hf : t.isLiteral "fun" <;> simp [hf]

theorem opens_iff_operandRule : (operandRule l t).isSome = opens l t := by
  obtain ⟨line, x⟩ := t
  cases x with
  | identifier s =>
    simp only [operandRule, opens, Token.isLiteral, beq_iff_eq, Bool.and_eq_true]
    split
    · rename_i h; obtain ⟨-, rfl⟩ := h; cases l <;> rfl
    · split
      · rename_i h; subst h; cases l <;> rfl
      · cases (reservedTexts l).contains s <;> rfl
  | _ => simp [operandRule, opens, Token.isLiteral, Token.lineEndText]

theorem begins_primary (k : Nat) : l.grammar.beginsWithin t (k + 2) Place.primary = some (opens l t) := by
  rw [begins_choice (elements_eq l _), firstThat_operand, ← opens_iff_operandRule]
  rfl

theorem begins_negative (k : Nat) : l.grammar.beginsWithin t (k + 1) Place.negative = some (t.isLiteral "-") := by
  rw [begins_literal (elements_eq l _)]
  simp

/-- a minus sign is no reserved text -/
theorem opens_of_minus (h : t.isLiteral "-" = true) : opens l t = true := by
  obtain ⟨line, x⟩ := t
  cases x <;> simp [Token.isLiteral, Token.lineEndText] at h
  subst h
  cases l <;> rfl

theorem firstThat_factor (k : Nat) :
    firstThat (l.grammar.beginsWithin t (k + 2)) [Place.negative, Place.primary] =
      some (if t.isLiteral "-" then some Place.negative else if opens l t then some Place.primary else none) := by
  rw [firstThat_cons (begins_negative l t (k + 1)), firstThat_cons (begins_primary l t k)]
  cases t.isLiteral "-" <;> cases opens l t <;> rfl

theorem begins_factor (k : Nat) : l.grammar.beginsWithin t (k + 3) Place.factor = some (opens l t) := by
  rw [begins_choice (elements_eq l _), firstThat_factor]
  have h := opens_of_minus l t
  cases hm : t.isLiteral "-" <;> cases ho : opens l t <;> simp [hm, ho] at h ⊢

theorem begins_expression (k : Nat) : l.grammar.beginsWithin t (k + 4) Place.expression = some (opens l t) := by
  rw [begins_operators (elements_eq l _), begins_factor]

theorem begins_simple (k : Nat) : l.grammar.beginsWithin t (k + 5) Place.simple = some (opens l t) := by
  rw [begins_call (elements_eq l _), begins_expression]

theorem begins_conditional (k : Nat) : l.grammar.beginsWithin t (k + 1) Place.conditional = some (t.isLiteral "if") := by
  rw [begins_literal (elements_eq l _)]
  simp

theorem begins_loop (k : Nat) : l.grammar.beginsWithin t (k + 1) Place.loop = some (t.isLiteral "while") := by
  rw [begins_literal (elements_eq l _)]
  simp

/-- `if` and `while` are no reserved texts -/
theorem opens_of_keyword (h : t.isLiteral "if" = true ∨ t.isLiteral "while" = true) : opens l t = true := by
  obtain ⟨line, x⟩ := t
  cases x <;> simp [Token.isLiteral, Token.lineEndText] at h
  rcases h with rfl | rfl <;> cases l <;> rfl

theorem firstThat_statement (k : Nat) :
    firstThat (l.grammar.beginsWithin t (k + 5)) [Place.conditional, Place.loop, Place.simple] =
      some (if t.isLiteral "if" then some Place.conditional else if t.isLiteral "while" then some Place.loop
        else if opens l t then some Place.simple else none) := by
  rw [firstThat_cons (begins_conditional l t (k + 4)), firstThat_cons (begins_loop l t (k + 4)),
    firstThat_cons (begins_simple l t k)]
  cases t.isLiteral "if" <;> cases t.isLiteral "while" <;> cases opens l t <;> rfl

theorem begins_statement (k : Nat) : l.grammar.beginsWithin t (k + 6) Place.statement = some (opens l t) := by
  rw [begins_choice (elements_eq l _), firstThat_statement]
  have h := opens_of_keyword l t
  cases hi : t.isLiteral "if" <;> cases hw : t.isLiteral "while" <;> cases ho : opens l t <;>
    simp [hi, hw, ho] at h ⊢

/-! ## Choices -/

theorem begins_eq (id : RuleId) : l.grammar.begins t id = l.grammar.beginsWithin t 29 id := by
  rw [begins, size_eq]

theorem chosen_eq (ids : List RuleId) : l.grammar.chosen t ids = firstThat (l.grammar.beginsWithin t 29) ids := by
  have h : l.grammar.begins t = l.grammar.beginsWithin t 29 := funext (begins_eq l t)
  rw [chosen, h]

theorem chosen_primary : l.grammar.chosen t (operandRules l) = some (operandRule l t) := by
  rw [chosen_eq, firstThat_operand]

theorem chosen_factor :
    l.grammar.chosen t [Place.negative, Place.primary] =
      some (if t.isLiteral "-" then some Place.negative else if opens l t then some Place.primary else none) := by
  rw [chosen_eq, firstThat_factor]

theorem chosen_statement :
    l.grammar.chosen t [Place.conditional, Place.loop, Place.simple] =
      some (if t.isLiteral "if" then some Place.conditional else if t.isLiteral "while" then some Place.loop
        else if opens l t then some Place.simple else none) := by
  rw [chosen_eq, firstThat_statement]

theorem chosen_program :
    l.grammar.chosen t (programRules l) =
      some (if l.hasFunctions && t.isLiteral "def" then some Place.definition
        else if opens l t then some Place.statement else some Place.nothing) := by
  have h1 : l.grammar.beginsWithin t 29 Place.definition = some (["def"].any t.isLiteral) :=
    begins_literal (elements_eq l _)
  have h2 : l.grammar.beginsWithin t 29 Place.nothing = some true := begins_nothing (elements_eq l _)
  have hrest : firstThat (l.grammar.beginsWithin t 29) [Place.statement, Place.nothing] =
      some (if opens l t then some Place.statement else some Place.nothing) := by
    rw [firstThat_cons (begins_statement l t 23), firstThat_cons h2]
    cases opens l t <;> rfl
  rw [chosen_eq]
  unfold programRules
  cases hf : l.hasFunctions with
  | false => simpa using hrest
  | true =>
    simp only [if_true, List.cons_append, List.nil_append]
    rw [firstThat_cons h1, hrest]
    cases hd : t.isLiteral "def" <;> simp [hd]

/-- rules whose first element is a literal begin with it -/
theorem begins_first {id : RuleId} {texts : List String} {keep : Bool} {more : List Element}
    (h : elementsAt l id = .literal texts keep :: more) : l.grammar.begins t id = some (texts.any t.isLiteral) := by
  rw [begins_eq, begins_literal ((elements_eq l id).trans h)]

theorem begins_arguments : l.grammar.begins t Place.arguments = some (opens l t) := by
  rw [begins_eq, begins_call (elements_eq l _), begins_expression]

theorem begins_params :
    l.grammar.begins t Place.params = some ((TokenClass.identifier (reservedTexts l)).accepts t) := by
  rw [begins_eq, begins_call (elements_eq l _), begins_token (elements_eq l _)]

/-- arguments in parentheses, or none of them -/
theorem chosen_arguments :
    l.grammar.chosen t [Place.arguments, Place.noArguments] =
      some (some (if opens l t then Place.arguments else Place.noArguments)) := by
  have h : l.grammar.begins t Place.noArguments = some true := by rw [begins_eq, begins_nothing (elements_eq l _)]
  rw [chosen, firstThat_cons (begins_arguments l t), firstThat_cons h]
  cases opens l t <;> rfl

/-- parameters, or none of them -/
theorem chosen_parameters :
    l.grammar.chosen t [Place.params, Place.noParams] =
      some (some (if (TokenClass.identifier (reservedTexts l)).accepts t then Place.params else Place.noParams)) := by
  have h : l.grammar.begins t Place.noParams = some true := by rw [begins_eq, begins_nothing (elements_eq l _)]
  rw [chosen, firstThat_cons (begins_params l t), firstThat_cons h]
  cases (TokenClass.identifier (reservedTexts l)).accepts t <;> rfl

end Level

/-! ## Steadiness -/

theorem opens_inputEnd (l : Level) : opens l Token.inputEnd = false := rfl

theorem begins_inputEnd_of_literal {l : Level} {id : RuleId} {texts : List String} {keep : Bool} {more : List Element}
    (h : elementsAt l id = .literal texts keep :: more) : l.grammar.begins Token.inputEnd id = some false := by
  rw [begins_first l _ h, isLiteral_inputEnd]

theorem begins_inputEnd_of_token {l : Level} {id : RuleId} {cls : TokenClass} {kind : LeafKind} {more : List Element}
    (h : elementsAt l id = .token cls kind :: more) : l.grammar.begins Token.inputEnd id = some false := by
  rw [begins_eq, begins_token ((elements_eq l id).trans h), accepts_inputEnd]

theorem steady_choice {l : Level} {ids : List RuleId}
    (h : ∀ id ∈ ids, l.grammar.begins Token.inputEnd id = some false ∨ elementsAt l id = []) :
    (Element.choice ids).Steady l.grammar := by
  intro id hid
  rcases h id hid with hb | he
  · exact .inl hb
  · exact .inr ⟨by rw [begins_eq, begins_nothing ((elements_eq l id).trans he)], (elements_eq l id).trans he⟩

/-- a repeated rule whose first element is a literal -/
theorem steady_many {l : Level} {id : RuleId} {texts : List String} {keep : Bool} {more : List Element}
    (h : elementsAt l id = .literal texts keep :: more) : (Element.many id).Steady l.grammar :=
  ⟨begins_inputEnd_of_literal h, by rw [elements_eq, h]; rfl⟩

/-- elements about which the end of input decides nothing -/
def plain : Element → Bool
  | .choice _ => false
  | .optional _ => false
  | .many _ => false
  | _ => true

theorem steady_plain {g : Grammar} {e : Element} (h : plain e = true) : e.Steady g := by
  cases e <;> trivial

/-- **The language is steady**: at the end of input only the empty alternatives can begin. -/
theorem steady (l : Level) : l.grammar.Steady := by
  have hopens := opens_inputEnd l
  have hstatement : l.grammar.begins Token.inputEnd Place.statement = some false := by
    rw [begins_eq, begins_statement, hopens]
  have hsimple : l.grammar.begins Token.inputEnd Place.simple = some false := by
    rw [begins_eq, begins_simple, hopens]
  have hprimary : l.grammar.begins Token.inputEnd Place.primary = some false := by
    rw [begins_eq, begins_primary, hopens]
  have harguments : l.grammar.begins Token.inputEnd Place.arguments = some false := by
    rw [begins_arguments, hopens]
  suffices h : ∀ id, ∀ e ∈ elementsAt l id, e.Steady l.grammar from fun id => elements_eq l id ▸ h id
  intro id
  match id with
  | Place.expression | Place.param | Place.moreParams | Place.noParams | Place.definition | Place.moreArguments
  | Place.noArguments | Place.closure | Place.grouped | Place.number | Place.name | Place.string | Place.negative
  | Place.otherwise | Place.loop | Place.nothing =>
    exact fun e he => steady_plain (List.all_eq_true.1 (rfl : (elementsAt l _).all plain = true) e he)
  | Place.primary =>
    refine List.forall_mem_cons.2 ⟨steady_choice fun id hid => .inl ?_, fun e he => ?_⟩
    · simp only [operandRules, List.mem_append, List.mem_ite_nil_right, List.mem_cons, List.not_mem_nil,
        or_false] at hid
      rcases hid with ⟨-, rfl⟩ | rfl | rfl | rfl | rfl
      · exact begins_inputEnd_of_literal rfl
      · exact begins_inputEnd_of_literal rfl
      · exact begins_inputEnd_of_token rfl
      · exact begins_inputEnd_of_token rfl
      · exact begins_inputEnd_of_token rfl
    · obtain ⟨-, he⟩ := List.mem_ite_nil_right.1 he
      obtain rfl := List.mem_singleton.1 he
      exact steady_many rfl
  | Place.statement =>
    refine List.forall_mem_singleton.2 (steady_choice ?_)
    simp only [List.forall_mem_cons]
    exact ⟨.inl (begins_inputEnd_of_literal rfl), .inl (begins_inputEnd_of_literal rfl), .inl hsimple, nofun⟩
  | Place.following =>
    simp only [elementsAt, List.forall_mem_cons]
    exact ⟨trivial, hstatement, nofun⟩
  | Place.block =>
    simp only [elementsAt, List.forall_mem_cons]
    exact ⟨trivial, hstatement, steady_many rfl, trivial, nofun⟩
  | Place.params =>
    simp only [elementsAt, List.forall_mem_cons]
    exact ⟨trivial, steady_many rfl, nofun⟩
  | Place.parameters =>
    have hparams : l.grammar.begins Token.inputEnd Place.params = some false := by
      rw [begins_params, accepts_inputEnd]
    simp only [elementsAt, List.forall_mem_cons]
    refine ⟨trivial, steady_choice ?_, trivial, nofun⟩
    simp only [List.forall_mem_cons]
    exact ⟨.inl hparams, .inr rfl, nofun⟩
  | Place.arguments =>
    simp only [elementsAt, List.forall_mem_cons]
    exact ⟨trivial, steady_many rfl, nofun⟩
  | Place.call =>
    simp only [elementsAt, List.forall_mem_cons]
    refine ⟨trivial, steady_choice ?_, trivial, nofun⟩
    simp only [List.forall_mem_cons]
    exact ⟨.inl harguments, .inr rfl, nofun⟩
  | Place.factor =>
    refine List.forall_mem_singleton.2 (steady_choice ?_)
    simp only [List.forall_mem_cons]
    exact ⟨.inl (begins_inputEnd_of_literal rfl), .inl hprimary, nofun⟩
  | Place.conditional =>
    simp only [elementsAt, List.forall_mem_cons]
    exact ⟨trivial, trivial, trivial, begins_inputEnd_of_literal rfl, nofun⟩
  | Place.simple =>
    refine List.forall_mem_cons.2 ⟨trivial, fun e he => ?_⟩
    obtain ⟨-, he⟩ := List.mem_ite_nil_right.1 he
    obtain rfl := List.mem_singleton.1 he
    exact harguments
  | Place.program =>
    refine List.forall_mem_cons.2 ⟨steady_choice fun id hid => ?_, List.forall_mem_singleton.2 trivial⟩
    simp only [programRules, List.mem_append, List.mem_ite_nil_right, List.mem_cons, List.not_mem_nil,
      or_false] at hid
    rcases hid with ⟨-, rfl⟩ | rfl | rfl
    · exact .inl (begins_inputEnd_of_literal rfl)
    · exact .inl hstatement
    · exact .inr rfl
  | n + 28 => exact List.forall_mem_nil _

end Language

end Stone
