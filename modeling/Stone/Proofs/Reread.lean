/-
Written trees, read again. Every kind of tree has its own lemma, which says how the tokens of its text are read if those
of its children are, and what may follow. An expression ends where neither an operator nor a call follows, a statement
ends at a separator or a closing brace. What is read is the merged tree, on the line where the text is.

There are no keywords, so a simple statement is in danger of being taken for another one: it must not begin with a name
that is spelled `if` or `while`, nor with `def` where definitions can stand. `Node.isClear` asks for that.

- `Fits.rereads`: the lexemes of a clear tree of the language read as the tree, role by role.
-/
import Stone.Proofs.Merged

namespace Stone

open TokenStream Grammar Stone.Language

/-! ## Reading at any depth -/

/-- the task reads tokens as trees, with rules nested however deep -/
def Reads (l : Level) (task : Task) (ts : List Token) (ns : List Node) (rest : List Token) : Prop :=
  ∃ depth, Derives l.grammar depth task ts ns rest

namespace Reads

variable {l : Level} {id : RuleId} {es : List Element} {ts mid rest : List Token} {n : Node} {ns ms : List Node}

theorem rule (h : Reads l (.elements (elementsAt l id)) ts ns rest) (hn : (buildAt id).make ns = n) :
    Reads l (.rule id) ts [n] rest := by
  obtain ⟨depth, h⟩ := h
  rw [← elements_eq] at h
  rw [← build_eq l] at hn
  exact ⟨depth + 1, hn ▸ .rule h⟩

/-- a rule that stands for its only child -/
theorem collapse (hr : elementsAt l id = es ∧ buildAt id = .collapse) (h : Reads l (.elements es) ts [n] rest) :
    Reads l (.rule id) ts [n] rest := by
  obtain ⟨rfl, hb⟩ := hr
  exact rule h (by rw [hb]; rfl)

/-- a rule that makes a list -/
theorem build {kind : ListKind} (hr : elementsAt l id = es ∧ buildAt id = .node kind)
    (h : Reads l (.elements es) ts ns rest) (hn : kind.build ns = n) : Reads l (.rule id) ts [n] rest := by
  obtain ⟨rfl, hb⟩ := hr
  exact rule h (by rw [hb]; exact hn)

theorem nil : Reads l (.elements []) ts [] ts := ⟨0, .nil⟩

theorem cons {e : Element} (h1 : Reads l (.element e) ts ns mid) (h2 : Reads l (.elements es) mid ms rest) :
    Reads l (.elements (e :: es)) ts (ns ++ ms) rest := by
  obtain ⟨d1, h1⟩ := h1
  obtain ⟨d2, h2⟩ := h2
  exact ⟨max d1 d2, .cons (h1.mono (Nat.le_max_left _ _)) (h2.mono (Nat.le_max_right _ _))⟩

theorem literal {texts : List String} {t : Token} (ht : texts.any t.isLiteral = true)
    (h : Reads l (.elements es) ts ns rest) : Reads l (.elements (.literal texts false :: es)) (t :: ts) ns rest :=
  cons ⟨0, .literal ht⟩ h

theorem token {cls : TokenClass} {kind : LeafKind} {t : Token} (ht : cls.accepts t = true)
    (h : Reads l (.elements es) ts ns rest) :
    Reads l (.elements (.token cls kind :: es)) (t :: ts) (.leaf kind t :: ns) rest :=
  cons ⟨0, .token ht⟩ h

theorem call (h1 : Reads l (.rule id) ts [n] mid) (h2 : Reads l (.elements es) mid ms rest) :
    Reads l (.elements (.rule id :: es)) ts (n :: ms) rest := by
  obtain ⟨depth, h1⟩ := h1
  exact cons ⟨depth, .call h1⟩ h2

theorem choice {ids : List RuleId} (hc : l.grammar.chosen (front ts) ids = some (some id))
    (h1 : Reads l (.rule id) ts [n] mid) (h2 : Reads l (.elements es) mid ms rest) :
    Reads l (.elements (.choice ids :: es)) ts (n :: ms) rest := by
  obtain ⟨depth, h1⟩ := h1
  exact cons ⟨depth, .choice hc h1⟩ h2

theorem skipped (hb : l.grammar.begins (front ts) id = some false) (h : Reads l (.elements es) ts ns rest) :
    Reads l (.elements (.optional id :: es)) ts ns rest :=
  cons ⟨0, .skipped hb⟩ h

theorem taken (hb : l.grammar.begins (front ts) id = some true) (h1 : Reads l (.rule id) ts [n] mid)
    (hv : n.isVacuous = false) (h2 : Reads l (.elements es) mid ms rest) :
    Reads l (.elements (.optional id :: es)) ts (n :: ms) rest := by
  obtain ⟨depth, h1⟩ := h1
  have h : Reads l (.element (.optional id)) ts [n] mid := ⟨depth, by simpa [hv] using Derives.taken hb h1⟩
  exact cons h h2

theorem many (h1 : Reads l (.many id) ts ns mid) (h2 : Reads l (.elements es) mid ms rest) :
    Reads l (.elements (.many id :: es)) ts (ns ++ ms) rest := by
  obtain ⟨depth, h1⟩ := h1
  exact cons ⟨depth, .repetition h1⟩ h2

theorem manyNil (hb : l.grammar.begins (front ts) id = some false) : Reads l (.many id) ts [] ts := ⟨0, .manyNil hb⟩

theorem manyCons (hb : l.grammar.begins (front ts) id = some true) (h1 : Reads l (.rule id) ts [n] mid)
    (hv : n.isVacuous = false) (h2 : Reads l (.many id) mid ns rest) : Reads l (.many id) ts (n :: ns) rest := by
  obtain ⟨d1, h1⟩ := h1
  obtain ⟨d2, h2⟩ := h2
  have h := Derives.manyCons hb (h1.mono (Nat.le_max_left d1 d2)) (h2.mono (Nat.le_max_right d1 d2))
  rw [if_neg (by simp [hv])] at h
  exact ⟨max d1 d2, h⟩

/-- a repetition that is all that is left of a rule -/
theorem of_many (h : Reads l (.elements [.many id]) ts ns rest) : Reads l (.many id) ts ns rest := by
  obtain ⟨depth, h⟩ := h
  cases h with
  | cons h1 h2 =>
    cases h2
    cases h1 with
    | repetition h1 => exact ⟨depth, by rwa [List.append_nil]⟩

end Reads

/-! ## Tokens of a text -/

section Tokens

variable {line : Nat}

@[simp] theorem tokensOn_nil : tokensOn line [] = [] := rfl

@[simp] theorem tokensOn_cons (x : Lexeme) (ls : List Lexeme) :
    tokensOn line (x :: ls) = ⟨line, x⟩ :: tokensOn line ls := rfl

@[simp] theorem tokensOn_append (ls ms : List Lexeme) : tokensOn line (ls ++ ms) = tokensOn line ls ++ tokensOn line ms :=
  List.map_append

theorem tokensOn_inParens (ls : List Lexeme) (rest : List Token) :
    tokensOn line (inParens ls) ++ rest =
      ⟨line, .identifier "("⟩ :: (tokensOn line ls ++ ⟨line, .identifier ")"⟩ :: rest) := by
  simp [inParens]

theorem tokensOn_inBraces (ls : List Lexeme) (rest : List Token) :
    tokensOn line (inBraces ls) ++ rest =
      ⟨line, .identifier "\x7b"⟩ :: (tokensOn line ls ++ ⟨line, .identifier "\x7d"⟩ :: rest) := by
  simp [inBraces]

/-- texts with a mark between them: the first one, then each other one after the mark -/
theorem intercalate_cons (x : Lexeme) (ls : List Lexeme) (more : List (List Lexeme)) :
    [x].intercalate (ls :: more) = ls ++ more.flatMap (x :: ·) := by
  induction more generalizing ls with
  | nil => simp
  | cons ms more ih =>
    rw [List.intercalate_cons_cons, ih, List.flatMap_cons]
    simp

end Tokens

/-- what is read from the text of a tree on a line: the merged tree -/
def Node.reread (line : Nat) (n : Node) : Node := n.merged.onLine line

namespace Node

theorem reread_leaf (line : Nat) (kind : LeafKind) (t : Token) :
    (leaf kind t).reread line = leaf kind ⟨line, t.lexeme⟩ := by
  rw [reread, merged_leaf, onLine, mapLines_leaf]
  rfl

theorem reread_list (kind : ListKind) (h : kind ≠ .primary) (line : Nat) (ns : List Node) :
    (list kind ns).reread line = list kind (ns.map (reread line)) := by
  rw [reread, merged_list fun hp => absurd hp h, onLine, mapLines_list, List.map_map]
  rfl

theorem reread_primary (line : Nat) (operand : Node) (calls : List Node) :
    (list .primary (operand :: calls)).reread line =
      list .primary ((operand.reread line).parts ++ calls.map (reread line)) := by
  rw [reread, merged_primary, onLine, mapLines_list, List.map_append, List.map_map, ← parts_mapLines]
  rfl

@[simp] theorem is_reread (line : Nat) (n : Node) (kind : ListKind) : (n.reread line).is kind = n.is kind := by
  rw [reread, onLine, is_mapLines, is_merged]

end Node

theorem not_vacuous_of_plain {n : Node} (h : n.is .plain = false) : n.isVacuous = false := by
  cases n with
  | leaf _ _ => rfl
  | list k _ => cases k <;> first | rfl | cases h

theorem Fits.reread_not_vacuous {l : Level} {Q : Token → Prop} {r : Role} {n : Node} (h : Fits l Q r n) (line : Nat) :
    (n.reread line).isVacuous = false := by
  refine not_vacuous_of_plain ?_
  rw [Node.is_reread]
  induction h with
  | simple _ ih => exact ih
  | statement _ ih => exact ih
  | _ => rfl

/-! ## Expressions -/

section Expressions

variable {l : Level} {line : Nat} {ts mid rest left : List Token} {n : Node} {ms : List Node}

/-- no call follows -/
def Uncalled (l : Level) (rest : List Token) : Prop := l.hasFunctions = true → (front rest).isLiteral "(" = false

/-- neither an operator nor a call follows -/
structure Closes (l : Level) (rest : List Token) : Prop where
  uncalled : Uncalled l rest
  no_operator : operatorOf .standard (front rest) = none

theorem closes_mark {s : String} (hs : s ∈ [")", ",", "\x7b", ";", "\x7d"]) :
    Closes l (⟨line, .identifier s⟩ :: rest) := by
  simp only [List.mem_cons, List.not_mem_nil, or_false] at hs
  rcases hs with rfl | rfl | rfl | rfl | rfl <;> exact ⟨fun _ => rfl, rfl⟩

/-- what comes after the head of an operand -/
def callElements (l : Level) : List Element := if l.hasFunctions then [.many Place.call] else []

theorem reads_no_calls (h : Uncalled l rest) : Reads l (.elements (callElements l)) rest [] rest := by
  unfold callElements
  cases hf : l.hasFunctions with
  | false => exact .nil
  | true =>
    have hb : l.grammar.begins (front rest) Place.call = some false := by
      rw [begins_first l _ rfl]
      simpa using h hf
    exact .many (.manyNil hb) .nil

/-- one more call before others -/
theorem reads_call_cons {c : Node} (hf : l.hasFunctions = true) (hv : c.isVacuous = false)
    (h1 : Reads l (.rule Place.call) (⟨line, .identifier "("⟩ :: ts) [c] mid)
    (h2 : Reads l (.elements (callElements l)) mid ms left) :
    Reads l (.elements (callElements l)) (⟨line, .identifier "("⟩ :: ts) (c :: ms) left := by
  unfold callElements at h2 ⊢
  rw [if_pos hf] at h2 ⊢
  have hb : l.grammar.begins ⟨line, .identifier "("⟩ Place.call = some true := by
    rw [begins_first l _ rfl]
    rfl
  have h := Reads.many (Reads.manyCons hb h1 hv h2.of_many) Reads.nil
  rwa [List.append_nil] at h

/-- the head of an operand, by the alternative that its first token chooses, and the calls on it -/
theorem reads_head {id : RuleId} (hc : operandRule l (front ts) = some id) (h1 : Reads l (.rule id) ts [n] mid)
    (h2 : Reads l (.elements (callElements l)) mid ms left) :
    Reads l (.elements (elementsAt l Place.primary)) ts (n :: ms) left :=
  .choice ((chosen_primary l _).trans (congrArg some hc)) h1 h2

theorem reads_primary {ns : List Node} (h : Reads l (.elements (elementsAt l Place.primary)) ts ns rest) :
    Reads l (.rule Place.primary) ts [ListKind.primary.build ns] rest := h.rule rfl

theorem reads_factor_primary (ho : opens l (front ts) = true) (hm : (front ts).isLiteral "-" = false)
    (h : Reads l (.rule Place.primary) ts [n] rest) : Reads l (.rule Place.factor) ts [n] rest := by
  refine Reads.rule (.choice ?_ h .nil) rfl
  rw [chosen_factor, hm, ho]
  rfl

theorem reads_factor_negative (h : Reads l (.rule Place.primary) ts [n] rest) :
    Reads l (.rule Place.factor) (⟨line, .identifier "-"⟩ :: ts) [.list .negative [n]] rest := by
  have hnegative : Reads l (.rule Place.negative) (⟨line, .identifier "-"⟩ :: ts) [.list .negative [n]] rest :=
    .rule (.literal rfl (.call h .nil)) rfl
  refine .rule (.choice ?_ hnegative .nil) rfl
  rw [chosen_factor]
  rfl

theorem reads_expression (h : Reads l (.rule Place.factor) ts [n] rest)
    (hr : operatorOf .standard (front rest) = none) : Reads l (.rule Place.expression) ts [n] rest := by
  obtain ⟨depth, h⟩ := h
  have hstop : ∀ p, operatorOf .standard (front rest) = some p → yields none p = false := by
    intro p hp
    rw [hr] at hp
    cases hp
  exact .rule (.cons ⟨depth, .chain h (.climbStop hstop)⟩ .nil) rfl

/-- two operands with an operator between them, up to where no further operator follows -/
theorem reads_binary {a b : Node} {op : String} {p : Precedence} (hop : OperatorTable.standard.get? op = some p)
    (ha : Reads l (.rule Place.factor) ts [a] (⟨line, .identifier op⟩ :: mid))
    (hb : Reads l (.rule Place.factor) mid [b] rest) (hr : operatorOf .standard (front rest) = none) :
    Reads l (.rule Place.expression) ts [.list .binary [a, .leaf .mark ⟨line, .identifier op⟩, b]] rest := by
  obtain ⟨d1, ha⟩ := ha
  obtain ⟨d2, hb⟩ := hb
  have ha := ha.mono (Nat.le_max_left d1 d2)
  have hb := hb.mono (Nat.le_max_right d1 d2)
  have hstop : ∀ waiting p, operatorOf .standard (front rest) = some p → yields waiting p = false := by
    intro waiting p hp
    rw [hr] at hp
    cases hp
  have hop : operatorOf .standard ⟨line, .identifier op⟩ = some p := hop
  have hchain : Reads l (.element (.operators Place.factor .standard .binary)) ts
      [.list .binary [a, .leaf .mark ⟨line, .identifier op⟩, b]] rest :=
    ⟨max d1 d2, .chain ha (.climbStep hop rfl hb (.climbStop (hstop _)) (.climbStop (hstop _)))⟩
  exact .rule (.cons hchain .nil) rfl

theorem reads_grouped (h : Reads l (.rule Place.expression) ts [n] (⟨line, .identifier ")"⟩ :: rest)) :
    Reads l (.rule Place.grouped) (⟨line, .identifier "("⟩ :: ts) [n] rest :=
  .rule (.literal rfl (.call h (.literal rfl .nil))) rfl

theorem operandRule_group (l : Level) (line : Nat) :
    operandRule l ⟨line, .identifier "("⟩ = some Place.grouped := by
  cases l <;> rfl

theorem operandRule_closure (h : l.hasClosures = true) :
    operandRule l ⟨line, .identifier "fun"⟩ = some Place.closure := by
  rw [operandRule, h]
  rfl

theorem operandRule_name {s : String} (h : Nameable l s) : operandRule l ⟨line, .identifier s⟩ = some Place.name := by
  obtain ⟨hr, hg, hc⟩ := h
  have hfun : (l.hasClosures && Token.isLiteral ⟨line, .identifier s⟩ "fun") = false := by
    cases hl : l.hasClosures with
    | false => rfl
    | true => simpa [Token.isLiteral] using hc hl
  have hgroup : Token.isLiteral ⟨line, .identifier s⟩ "(" = false := by simpa [Token.isLiteral] using hg
  rw [operandRule, hfun, hgroup]
  simp [hr]

end Expressions

/-! ## Lists with separators -/

section Separated

variable {l : Level} {line : Nat} {rest : List Token} {ns : List Node}

/-- items that each come after a separator. What follows an item is the next separator or what follows the last one. -/
theorem reads_separated {id : RuleId} {s : String} {P : List Token → Prop}
    (hP : ∀ ts, P (⟨line, .identifier s⟩ :: ts)) (hb : l.grammar.begins ⟨line, .identifier s⟩ id = some true)
    (hn : ∀ n ∈ ns, (n.reread line).isVacuous = false ∧ ∀ rest, P rest →
      Reads l (.rule id) (⟨line, .identifier s⟩ :: (tokensOn line n.lexemes ++ rest)) [n.reread line] rest)
    (hr : P rest) (he : l.grammar.begins (front rest) id = some false) :
    Reads l (.many id) (tokensOn line ((ns.map Node.lexemes).flatMap (.identifier s :: ·)) ++ rest)
      (ns.map (Node.reread line)) rest := by
  induction ns with
  | nil => exact .manyNil he
  | cons n more ih =>
    obtain ⟨⟨hv, hread⟩, hmore⟩ := List.forall_mem_cons.1 hn
    have hfollow : P (tokensOn line ((more.map Node.lexemes).flatMap (.identifier s :: ·)) ++ rest) := by
      cases more with
      | nil => exact hr
      | cons m more => exact hP _
    have htokens : tokensOn line (((n :: more).map Node.lexemes).flatMap (.identifier s :: ·)) ++ rest =
        ⟨line, .identifier s⟩ :: (tokensOn line n.lexemes ++
          (tokensOn line ((more.map Node.lexemes).flatMap (.identifier s :: ·)) ++ rest)) := by
      simp
    rw [htokens]
    exact .manyCons hb (hread _ hfollow) hv (ih hmore)

/-- rules for a list in parentheses: `outer` is a parenthesis, `inner` or, where `p` says that it cannot begin, `none`,
and a parenthesis; `inner` is an `item` and any number of `more`, which are items after a comma -/
structure Bracketed (l : Level) (kind : ListKind) (outer inner none more item : RuleId) (p : Token → Bool) : Prop where
  outer_eq : elementsAt l outer = [skip "(", .choice [inner, none], skip ")"] ∧ buildAt outer = .collapse
  inner_eq : elementsAt l inner = [.rule item, .many more] ∧ buildAt inner = .node kind
  none_eq : elementsAt l none = [] ∧ buildAt none = .node kind
  more_eq : elementsAt l more = [skip ",", .rule item] ∧ buildAt more = .collapse
  build_eq : ∀ ns, kind.build ns = .list kind ns
  chosen_eq : ∀ t, l.grammar.chosen t [inner, none] = some (some (if p t then inner else none))

theorem bracketed_parameters (l : Level) :
    Bracketed l .parameters Place.parameters Place.params Place.noParams Place.moreParams Place.param
      (TokenClass.identifier (reservedTexts l)).accepts :=
  ⟨⟨rfl, rfl⟩, ⟨rfl, rfl⟩, ⟨rfl, rfl⟩, ⟨rfl, rfl⟩, fun _ => rfl, chosen_parameters l⟩

theorem bracketed_arguments (l : Level) :
    Bracketed l .arguments Place.call Place.arguments Place.noArguments Place.moreArguments Place.expression (opens l) :=
  ⟨⟨rfl, rfl⟩, ⟨rfl, rfl⟩, ⟨rfl, rfl⟩, ⟨rfl, rfl⟩, fun _ => rfl, chosen_arguments l⟩

/-- **A list in parentheses** is read if its items are, each before a comma or the closing parenthesis. -/
theorem Bracketed.reads {kind : ListKind} {outer inner none more item : RuleId} {p : Token → Bool}
    {P : List Token → Prop} (h : Bracketed l kind outer inner none more item p)
    (hP : ∀ s ts, s = "," ∨ s = ")" → P (⟨line, .identifier s⟩ :: ts)) (he : p ⟨line, .identifier ")"⟩ = false)
    (hn : ∀ n ∈ ns, (n.reread line).isVacuous = false ∧ ∀ rest, P rest → p (front (tokensOn line n.lexemes ++ rest)) = true ∧
      Reads l (.rule item) (tokensOn line n.lexemes ++ rest) [n.reread line] rest) :
    Reads l (.rule outer) (tokensOn line (inParens ([.identifier ","].intercalate (ns.map Node.lexemes))) ++ rest)
      [.list kind (ns.map (Node.reread line))] rest := by
  have hend := hP ")" rest (.inr rfl)
  rw [tokensOn_inParens]
  cases ns with
  | nil =>
    have hnone : Reads l (.rule none) (⟨line, .identifier ")"⟩ :: rest) [.list kind []]
        (⟨line, .identifier ")"⟩ :: rest) := .build h.none_eq .nil (h.build_eq [])
    refine .collapse h.outer_eq (.literal rfl (.choice ?_ hnone (.literal rfl .nil)))
    rw [h.chosen_eq]
    simp [he]
  | cons n others =>
    obtain ⟨⟨-, hread⟩, hothers⟩ := List.forall_mem_cons.1 hn
    have hbegins : ∀ s, l.grammar.begins ⟨line, .identifier s⟩ more = some (["," ].any (s == ·)) :=
      fun s => begins_first l _ h.more_eq.1
    have hmore := reads_separated (fun ts => hP "," ts (.inl rfl)) (hbegins ",")
      (fun m hm => ⟨(hothers m hm).1, fun rest hrest =>
        .collapse h.more_eq (.literal rfl (.call ((hothers m hm).2 rest hrest).2 .nil))⟩) hend (hbegins ")")
    have hfollow : P (tokensOn line ((others.map Node.lexemes).flatMap (.identifier "," :: ·)) ++
        ⟨line, .identifier ")"⟩ :: rest) := by
      cases others with
      | nil => exact hend
      | cons m others => exact hP "," _ (.inl rfl)
    obtain ⟨hp, hfirst⟩ := hread _ hfollow
    rw [List.map_cons, intercalate_cons, tokensOn_append, List.append_assoc]
    have hinner := Reads.build h.inner_eq (.call hfirst (.many hmore .nil)) (h.build_eq _)
    rw [List.append_nil] at hinner
    refine .collapse h.outer_eq (.literal rfl (.choice ?_ hinner (.literal rfl .nil)))
    rw [h.chosen_eq]
    simp [hp]

end Separated

/-! ## Statements -/

/-- a statement ends here -/
def Finishes (rest : List Token) : Prop :=
  (front rest).lexeme ∈ [Lexeme.identifier ";", .identifier "\x7d", .lineEnd]

section Statements

variable {l : Level} {line : Nat} {ts mid rest : List Token} {n condition body : Node}

theorem Finishes.closed (l : Level) (h : Finishes rest) :
    Closes l rest ∧ opens l (front rest) = false ∧ (front rest).isLiteral "else" = false := by
  unfold Finishes at h
  have hcloses : ∀ t : Token, t.lexeme ∈ [Lexeme.identifier ";", .identifier "\x7d", .lineEnd] →
      t.isLiteral "(" = false ∧ operatorOf .standard t = none ∧ opens l t = false ∧ t.isLiteral "else" = false := by
    rintro ⟨line, x⟩ hx
    simp only [List.mem_cons, List.not_mem_nil, or_false] at hx
    rcases hx with rfl | rfl | rfl <;> cases l <;> exact ⟨rfl, rfl, rfl, rfl⟩
  obtain ⟨hcall, hop, hopens, helse⟩ := hcloses _ h
  exact ⟨⟨fun _ => hcall, hop⟩, hopens, helse⟩

theorem reads_simple (h : Reads l (.rule Place.expression) ts [n] rest) (hr : Finishes rest) :
    Reads l (.rule Place.simple) ts [n] rest := by
  have hend : Reads l (.elements (if l.hasFunctions then [.optional Place.arguments] else [])) rest [] rest := by
    cases l.hasFunctions with
    | false => exact .nil
    | true => exact .skipped ((begins_arguments l _).trans (congrArg some (hr.closed l).2.1)) .nil
  exact .build ⟨rfl, rfl⟩ (.call h hend) rfl

theorem reads_statement {id : RuleId} (h : Reads l (.rule id) ts [n] rest)
    (hc : l.grammar.chosen (front ts) [Place.conditional, Place.loop, Place.simple] = some (some id)) :
    Reads l (.rule Place.statement) ts [n] rest :=
  .collapse ⟨rfl, rfl⟩ (.choice hc h .nil)

theorem reads_conditional (hc : Reads l (.rule Place.expression) ts [condition] mid)
    (hb : Reads l (.rule Place.block) mid [body] rest) (hr : (front rest).isLiteral "else" = false) :
    Reads l (.rule Place.conditional) (⟨line, .identifier "if"⟩ :: ts) [.list .conditional [condition, body]] rest := by
  have helse : l.grammar.begins (front rest) Place.otherwise = some false := by
    rw [begins_first l _ rfl]
    simpa using hr
  exact .build ⟨rfl, rfl⟩ (.literal rfl (.call hc (.call hb (.skipped helse .nil)))) rfl

theorem reads_otherwise {other : Node} {after : List Token} (hc : Reads l (.rule Place.expression) ts [condition] mid)
    (hb : Reads l (.rule Place.block) mid [body] (⟨line, .identifier "else"⟩ :: after))
    (ho : Reads l (.rule Place.block) after [other] rest) (hv : other.isVacuous = false) :
    Reads l (.rule Place.conditional) (⟨line, .identifier "if"⟩ :: ts) [.list .conditional [condition, body, other]]
      rest := by
  have hother : Reads l (.rule Place.otherwise) (⟨line, .identifier "else"⟩ :: after) [other] rest :=
    .collapse ⟨rfl, rfl⟩ (.literal rfl (.call ho .nil))
  have helse : l.grammar.begins ⟨line, .identifier "else"⟩ Place.otherwise = some true := by
    rw [begins_first l _ rfl]
    rfl
  exact .build ⟨rfl, rfl⟩ (.literal rfl (.call hc (.call hb (.taken helse hother hv .nil)))) rfl

theorem reads_loop (hc : Reads l (.rule Place.expression) ts [condition] mid)
    (hb : Reads l (.rule Place.block) mid [body] rest) :
    Reads l (.rule Place.loop) (⟨line, .identifier "while"⟩ :: ts) [.list .loop [condition, body]] rest :=
  .build ⟨rfl, rfl⟩ (.literal rfl (.call hc (.call hb .nil))) rfl

theorem begins_statement_iff (l : Level) (t : Token) : l.grammar.begins t Place.statement = some (opens l t) := by
  rw [begins_eq, begins_statement]

/-- **A block is read** if its statements are, each before a semicolon or the closing brace. -/
theorem reads_block {ns : List Node} (hn : ∀ n ∈ ns, (n.reread line).isVacuous = false ∧
      (∀ rest, opens l (front (tokensOn line n.lexemes ++ rest)) = true) ∧ ∀ rest, Finishes rest →
        Reads l (.rule Place.statement) (tokensOn line n.lexemes ++ rest) [n.reread line] rest) :
    Reads l (.rule Place.block) (tokensOn line (inBraces ([.identifier ";"].intercalate (ns.map Node.lexemes))) ++ rest)
      [.list .block (ns.map (Node.reread line))] rest := by
  have hend : Finishes (⟨line, .identifier "\x7d"⟩ :: rest) := .tail _ (.head _)
  have hbegins : ∀ s, l.grammar.begins ⟨line, .identifier s⟩ Place.following =
      some ([";", Token.lineEndText].any (s == ·)) := fun s => begins_first l _ rfl
  rw [tokensOn_inBraces]
  cases ns with
  | nil =>
    have hopens : opens l ⟨line, .identifier "\x7d"⟩ = false := by cases l <;> rfl
    have hskipped : l.grammar.begins ⟨line, .identifier "\x7d"⟩ Place.statement = some false := by
      rw [begins_statement_iff, hopens]
    exact .build ⟨rfl, rfl⟩
      (.literal rfl (.skipped hskipped (.many (.manyNil (hbegins "\x7d")) (.literal rfl .nil)))) rfl
  | cons n others =>
    obtain ⟨⟨hv, hopens, hread⟩, hothers⟩ := List.forall_mem_cons.1 hn
    have hmore := reads_separated (P := Finishes) (fun ts => .head _) (hbegins ";")
      (fun m hm => ⟨(hothers m hm).1, fun rest hrest => by
        obtain ⟨hv, hopens, hread⟩ := hothers m hm
        have hbegin := (begins_statement_iff l _).trans (congrArg some (hopens rest))
        exact .collapse ⟨rfl, rfl⟩ (.literal rfl (.taken hbegin (hread rest hrest) hv .nil))⟩) hend (hbegins "\x7d")
    have hfollow : Finishes (tokensOn line ((others.map Node.lexemes).flatMap (.identifier ";" :: ·)) ++
        ⟨line, .identifier "\x7d"⟩ :: rest) := by
      cases others with
      | nil => exact hend
      | cons m others => exact .head _
    have hbegin := (begins_statement_iff l _).trans (congrArg some (hopens
      (tokensOn line ((others.map Node.lexemes).flatMap (.identifier ";" :: ·)) ++ ⟨line, .identifier "\x7d"⟩ :: rest)))
    rw [List.map_cons, intercalate_cons, tokensOn_append, List.append_assoc]
    have hstatements : Reads l (.elements [.optional Place.statement, .many Place.following, skip "\x7d"]) _
        (n.reread line :: (others.map (Node.reread line) ++ [])) rest :=
      .taken hbegin (hread _ hfollow) hv (.many hmore (.literal rfl .nil))
    rw [List.append_nil] at hstatements
    exact .build ⟨rfl, rfl⟩ (.literal rfl hstatements) rfl

end Statements

end Stone
