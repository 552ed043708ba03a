/-
The lexemes of trees. `Node.lexemes` says what the text of a tree consists of, without blanks; `Fits.writes` says that the
text of every tree of the language scans as its lexemes, if no quotes come after a lone quote. A program is written one
statement a line, and `ofSource_programSource` has its tokens.
-/
import Stone.Proofs.Written

namespace Stone

open Text TokenStream

/-! ## Trees as lexemes -/

/-- lexemes in parentheses -/
def inParens (ls : List Lexeme) : List Lexeme := .identifier "(" :: (ls ++ [.identifier ")"])

/-- lexemes in braces -/
def inBraces (ls : List Lexeme) : List Lexeme := .identifier "\x7b" :: (ls ++ [.identifier "\x7d"])

namespace Node

/-- operand lexemes, in parentheses if need be -/
def wrapLexemes (n : Node) (ls : List Lexeme) : List Lexeme := if n.isBareOperand then ls else inParens ls

/-- an operand and what comes after it, from the trees and the lexemes of each -/
def callLexemes : List Node → List (List Lexeme) → List Lexeme
  | operand :: _, ls :: more => operand.wrapLexemes ls ++ more.flatten
  | _, _ => []

/-- `if`, condition and block, and `else` with the third child -/
def conditionalLexemes (parts : List (List Lexeme)) : List Lexeme :=
  .identifier "if" :: ((parts.take 2).flatten ++
    match parts[2]? with
    | some other => .identifier "else" :: other
    | none => [])

/-- the lexemes of a list, from its children and the lexemes of each -/
def listLexemes (kind : ListKind) (children : List Node) (parts : List (List Lexeme)) : List Lexeme :=
  match kind with
  | .binary => inParens parts.flatten
  | .negative => .identifier "-" :: callLexemes children parts
  | .primary => callLexemes children parts
  | .arguments => inParens ([.identifier ","].intercalate parts)
  | .parameters => inParens ([.identifier ","].intercalate parts)
  | .block => inBraces ([.identifier ";"].intercalate parts)
  | .conditional => conditionalLexemes parts
  | .loop => .identifier "while" :: parts.flatten
  | .definition => .identifier "def" :: parts.flatten
  | .closure => .identifier "fun" :: parts.flatten
  | .empty => []
  | .plain => parts.flatten

mutual

/-- the lexemes of the source text of a tree -/
def lexemes : Node → List Lexeme
  | leaf _ t => [t.lexeme]
  | list kind children => listLexemes kind children (lexemesOfAll children)

def lexemesOfAll : List Node → List (List Lexeme)
  | [] => []
  | n :: more => n.lexemes :: lexemesOfAll more

end

theorem lexemesOfAll_eq (ns : List Node) : lexemesOfAll ns = ns.map lexemes := by
  induction ns with
  | nil => rfl
  | cons n more ih => rw [lexemesOfAll, ih, List.map_cons]

theorem lexemes_list (kind : ListKind) (ns : List Node) :
    (list kind ns).lexemes = listLexemes kind ns (ns.map lexemes) := by
  rw [lexemes, lexemesOfAll_eq]

/-- an operand in its place, as text and as lexemes -/
def operandChars (n : Node) : List Char := n.wrapOperand n.sourceChars

def operandLexemes (n : Node) : List Lexeme := n.wrapLexemes n.lexemes

theorem operandLexemes_bare {n : Node} (h : n.isBareOperand = true) : n.operandLexemes = n.lexemes := by
  rw [operandLexemes, wrapLexemes, if_pos h]

theorem operandLexemes_wrapped {n : Node} (h : n.isBareOperand = false) : n.operandLexemes = inParens n.lexemes := by
  rw [operandLexemes, wrapLexemes, if_neg (by simp [h])]

/-! One equation for each kind of tree that the language has. -/

@[simp] theorem lexemes_leaf (kind : LeafKind) (t : Token) : (leaf kind t).lexemes = [t.lexeme] := rfl

theorem lexemes_binary (a op b : Node) :
    (list .binary [a, op, b]).lexemes = inParens (a.lexemes ++ (op.lexemes ++ b.lexemes)) := by
  simp [lexemes_list, listLexemes]

theorem lexemes_negative (n : Node) : (list .negative [n]).lexemes = .identifier "-" :: n.operandLexemes := by
  simp [lexemes_list, listLexemes, callLexemes, operandLexemes]

theorem lexemes_primary (n : Node) (calls : List Node) :
    (list .primary (n :: calls)).lexemes = n.operandLexemes ++ (calls.map lexemes).flatten :=
  lexemes_list .primary (n :: calls)

theorem lexemes_arguments (ns : List Node) :
    (list .arguments ns).lexemes = inParens ([.identifier ","].intercalate (ns.map lexemes)) :=
  lexemes_list .arguments ns

theorem lexemes_parameters (ns : List Node) :
    (list .parameters ns).lexemes = inParens ([.identifier ","].intercalate (ns.map lexemes)) :=
  lexemes_list .parameters ns

theorem lexemes_block (ns : List Node) :
    (list .block ns).lexemes = inBraces ([.identifier ";"].intercalate (ns.map lexemes)) :=
  lexemes_list .block ns

theorem lexemes_conditional (condition body : Node) :
    (list .conditional [condition, body]).lexemes = .identifier "if" :: (condition.lexemes ++ body.lexemes) := by
  simp [lexemes_list, listLexemes, conditionalLexemes]

theorem lexemes_otherwise (condition body other : Node) :
    (list .conditional [condition, body, other]).lexemes =
      .identifier "if" :: (condition.lexemes ++ (body.lexemes ++ .identifier "else" :: other.lexemes)) := by
  simp [lexemes_list, listLexemes, conditionalLexemes]

theorem lexemes_loop (condition body : Node) :
    (list .loop [condition, body]).lexemes = .identifier "while" :: (condition.lexemes ++ body.lexemes) := by
  simp [lexemes_list, listLexemes]

theorem lexemes_definition (name params body : Node) :
    (list .definition [name, params, body]).lexemes =
      .identifier "def" :: (name.lexemes ++ (params.lexemes ++ body.lexemes)) := by
  simp [lexemes_list, listLexemes]

theorem lexemes_closure (params body : Node) :
    (list .closure [params, body]).lexemes = .identifier "fun" :: (params.lexemes ++ body.lexemes) := by
  simp [lexemes_list, listLexemes]

end Node

/-! ## Pieces put together -/

/-- the words that the grammar gives a meaning -/
def keywords : List String := ["if", "while", "else", "def", "fun"]

theorem keyword_spelling {s : String} (hs : s ∈ keywords) : Spelling s.toList := by
  simp only [keywords, List.mem_cons, List.not_mem_nil, or_false] at hs
  rcases hs with rfl | rfl | rfl | rfl | rfl <;> exact .word rfl (List.all_eq_true.1 rfl)

namespace Writes

variable {cs ds : List Char} {ls ms : List Lexeme}

theorem inParens (h : Writes cs ls) : Writes ('(' :: cs ++ [')']) (inParens ls) :=
  solid rfl rfl (h.append (solid (s := ")") rfl rfl nil) (bounded_cons rfl))

/-- pieces with a blank between them -/
theorem spaced (h1 : Writes cs ls) (h2 : Writes ds ms) : Writes (cs ++ ' ' :: ds) (ls ++ ms) :=
  h1.append h2.space (bounded_cons rfl)

/-- a word of the grammar before a piece -/
theorem keyword {s : String} (hs : s ∈ keywords) (h : Writes cs ls) :
    Writes (s.toList ++ ' ' :: cs) (.identifier s :: ls) :=
  (identifier_writes (keyword_spelling hs)).spaced h

/-- pieces with a mark and a blank between them -/
theorem joined {c : Char} {s : String} (hs : s.toList = [c]) (hc : isSolid c = true) (hb : isBound c = true)
    {ns : List Node} (h : ∀ n ∈ ns, Writes n.sourceChars n.lexemes) :
    Writes ([c, ' '].intercalate (ns.map Node.sourceChars)) ([.identifier s].intercalate (ns.map Node.lexemes)) := by
  induction ns with
  | nil => exact nil
  | cons n more ih =>
    obtain ⟨hn, hmore⟩ := List.forall_mem_cons.1 h
    cases more with
    | nil => simpa using hn
    | cons m more =>
      have hrest := solid hs hc (ih hmore).space
      have hall := hn.append hrest (bounded_cons hb)
      simpa [List.intercalate_cons_cons] using hall

theorem operand {n : Node} (h : Writes n.sourceChars n.lexemes) : Writes n.operandChars n.operandLexemes := by
  rw [Node.operandChars, Node.wrapOperand]
  by_cases hb : n.isBareOperand = true
  · rw [if_pos hb, Node.operandLexemes_bare hb]
    exact h
  · rw [if_neg hb, Node.operandLexemes_wrapped (by simpa using hb)]
    exact h.inParens

end Writes

/-! ## Trees of the language -/

/-- calls begin with a parenthesis -/
theorem Fits.arguments_bounded {l : Level} {Q : Token → Prop} {n : Node} (h : Fits l Q .arguments n) :
    Bounded n.sourceChars := by
  cases h
  rw [Node.sourceChars]
  exact bounded_cons rfl

theorem Fits.parameters_bounded {l : Level} {Q : Token → Prop} {n : Node} (h : Fits l Q .parameters n) :
    Bounded n.sourceChars := by
  cases h
  rw [Node.sourceChars]
  exact bounded_cons rfl

/-- the calls on an operand, one after the other -/
theorem calls_writes {l : Level} {Q : Token → Prop} {calls : List Node} (h : ∀ c ∈ calls, Fits l Q .arguments c)
    (hw : ∀ c ∈ calls, Writes c.sourceChars c.lexemes) :
    Writes (calls.map Node.sourceChars).flatten (calls.map Node.lexemes).flatten ∧
      Bounded (calls.map Node.sourceChars).flatten := by
  induction calls with
  | nil => exact ⟨.nil, bounded_nil⟩
  | cons c more ih =>
    obtain ⟨hc, hmore⟩ := List.forall_mem_cons.1 h
    obtain ⟨hwc, hwmore⟩ := List.forall_mem_cons.1 hw
    obtain ⟨hwrites, hbounded⟩ := ih hmore hwmore
    exact ⟨hwc.append hwrites hbounded, hc.arguments_bounded.append hbounded⟩

theorem sourceOfStatements_full {ns : List Node} (h : ∀ n ∈ ns, n.is .empty = false) :
    Node.sourceOfStatements ns = ns.map Node.sourceChars := by
  rw [Node.sourceOfStatements_eq, List.filter_eq_self.2]
  intro n hn
  simp [h n hn]

theorem Fits.statement_not_empty {l : Level} {Q : Token → Prop} {n : Node} (h : Fits l Q .statement n) :
    n.is .empty = false := (h.tidy nofun n .here).2

theorem sourceChars_leaf {kind : LeafKind} (h : kind ≠ .string) (t : Token) :
    (Node.leaf kind t).sourceChars = t.text.toList := by
  cases kind with
  | string => exact absurd rfl h
  | _ => rfl

/-- **The text of a tree scans as its lexemes.** -/
theorem Fits.writes {l : Level} {r : Role} {n : Node} (h : Fits l Token.Scanned r n) :
    Writes n.sourceChars n.lexemes := by
  induction h with
  | number hq =>
    rw [sourceChars_leaf (by decide)]
    exact number_writes hq.1 hq.2
  | string _ =>
    rw [Node.sourceChars]
    exact string_writes _
  | name hq _ _ =>
    rw [sourceChars_leaf (by decide)]
    exact identifier_writes hq
  | negative _ ih =>
    rw [Node.sourceChars, Node.lexemes_negative]
    exact .solid rfl rfl ih.operand
  | @binary _ left right line op _ _ _ hq _ iha ihb =>
    have hop : Writes op.toList (Node.leaf .mark ⟨line, .identifier op⟩).lexemes := identifier_writes hq
    have h := (iha.spaced (hop.spaced ihb)).inParens
    rw [Node.lexemes_binary]
    simpa [Node.sourceChars, Node.sourceOfAll, List.intercalate, Token.text] using h
  | primary _ _ _ hcs ih ihs =>
    obtain ⟨hwrites, hbounded⟩ := calls_writes hcs ihs
    rw [Node.sourceChars, Node.sourceOfAll_eq, Node.lexemes_primary]
    exact ih.operand.append hwrites hbounded
  | closure _ _ _ ihp ihb =>
    have h := Writes.keyword (s := "fun") (by decide) (ihp.spaced ihb)
    rw [Node.lexemes_closure]
    simpa [Node.sourceChars, Node.sourceOfAll, List.intercalate] using h
  | arguments _ ih =>
    rw [Node.sourceChars, Node.sourceOfAll_eq, Node.lexemes_arguments]
    exact (Writes.joined (c := ',') rfl rfl rfl ih).inParens
  | parameter hq _ =>
    rw [sourceChars_leaf (by decide)]
    exact identifier_writes hq
  | parameters _ ih =>
    rw [Node.sourceChars, Node.sourceOfAll_eq, Node.lexemes_parameters]
    exact (Writes.joined (c := ',') rfl rfl rfl ih).inParens
  | @block ns hns ih =>
    rw [Node.lexemes_block]
    cases ns with
    | nil => exact .solid rfl rfl (.solid rfl rfl .nil)
    | cons first more =>
      have hend : Writes [' ', '\x7d'] [.identifier "\x7d"] := (Writes.solid (s := "\x7d") rfl rfl .nil).space
      have h := (Writes.joined (c := ';') (s := ";") rfl rfl rfl ih).append hend (bounded_cons rfl)
      rw [Node.sourceChars, sourceOfStatements_full fun n hn => (hns n hn).statement_not_empty]
      exact .solid rfl rfl h.space
  | simple _ ih => exact ih
  | conditional _ _ ihc ihb =>
    have h := Writes.keyword (s := "if") (by decide) (ihc.spaced ihb)
    rw [Node.lexemes_conditional]
    simpa [Node.sourceChars, Node.sourceOfAll, Node.conditionalText, List.intercalate] using h
  | otherwise _ _ _ ihc ihb iho =>
    have helse := Writes.keyword (s := "else") (by decide) iho
    have h := Writes.keyword (s := "if") (by decide) (ihc.spaced (ihb.spaced helse))
    rw [Node.lexemes_otherwise]
    simpa [Node.sourceChars, Node.sourceOfAll, Node.conditionalText, List.intercalate] using h
  | loop _ _ ihc ihb =>
    have h := Writes.keyword (s := "while") (by decide) (ihc.spaced ihb)
    rw [Node.lexemes_loop]
    simpa [Node.sourceChars, Node.sourceOfAll, List.intercalate] using h
  | @definition line s _ _ _ hq _ hp _ ihp ihb =>
    have hname : Writes s.toList (Node.leaf .mark ⟨line, .identifier s⟩).lexemes := identifier_writes hq
    have hsignature := hname.append ihp hp.parameters_bounded
    have h := Writes.keyword (s := "def") (by decide) (hsignature.spaced ihb)
    rw [Node.lexemes_definition]
    simpa [Node.sourceChars, Node.sourceOfAll, Node.definitionText, Token.text] using h
  | statement _ ih => exact ih
  | nothing =>
    rw [Node.sourceChars]
    exact .nil

/-! ## Programs -/

/-- lexemes on a line -/
def tokensOn (line : Nat) (ls : List Lexeme) : List Token := ls.map (Token.mk line)

/-- the tokens of statements that are written one a line -/
def writtenFrom (line : Nat) : List Node → List Token
  | [] => []
  | n :: more => tokensOn line n.lexemes ++ Token.lineEnd line :: writtenFrom (line + 1) more

theorem pieces_single {cs : List Char} (h : '\n' ∉ cs) : pieces cs = (cs, []) := by
  induction cs with
  | nil => rfl
  | cons c cs ih =>
    obtain ⟨hc, hcs⟩ : '\n' ≠ c ∧ '\n' ∉ cs := by simpa using h
    have hstep : pieces (c :: cs) = if c = '\n' then ([], (pieces cs).1 :: (pieces cs).2)
        else (c :: (pieces cs).1, (pieces cs).2) := rfl
    rw [hstep, if_neg (Ne.symm hc), ih hcs]

/-- texts with line ends between them are the lines of that text -/
theorem lines_intercalate {texts : List (List Char)} (hn : ∀ cs ∈ texts, '\n' ∉ cs)
    (hr : ∀ cs ∈ texts, cs.getLast? ≠ some '\r') (he : ∀ cs ∈ texts, cs ≠ []) :
    Text.lines (['\n'].intercalate texts) = texts := by
  induction texts with
  | nil => rfl
  | cons cs more ih =>
    obtain ⟨hncs, hnmore⟩ := List.forall_mem_cons.1 hn
    obtain ⟨hrcs, hrmore⟩ := List.forall_mem_cons.1 hr
    obtain ⟨hecs, hemore⟩ := List.forall_mem_cons.1 he
    cases more with
    | nil => rw [List.intercalate_singleton, Text.lines, pieces_single hncs, ofPieces, if_neg hecs]
    | cons ds more =>
      have hall : ['\n'].intercalate (cs :: ds :: more) = cs ++ '\n' :: ['\n'].intercalate (ds :: more) := by
        simp [List.intercalate_cons_cons]
      rw [hall, lines_append hncs, ih hnmore hrmore hemore, withoutReturn, if_neg hrcs]

/-- a statement that is written as its lexemes, at least one of them -/
structure Legible (n : Node) : Prop where
  writes : Writes n.sourceChars n.lexemes
  quotes : QuoteSafe n.lexemes
  some : n.lexemes ≠ []

/-- a line with nothing but one piece -/
theorem Writes.scanLine_eq {cs : List Char} {ls : List Lexeme} (h : Writes cs ls) (hq : QuoteSafe ls) (line : Nat) :
    scanLine line cs = .ok (tokensOn line ls ++ [Token.lineEnd line]) := by
  have hs := h.scan hq line cs.length [] bounded_nil nofun
  rw [List.append_nil, scanRest_nil] at hs
  exact hs

/-- lexemes are written with characters -/
theorem Legible.chars {n : Node} (h : Legible n) : n.sourceChars ≠ [] := by
  intro hn
  have hs := h.writes.scan h.quotes 0 0 [] bounded_nil nofun
  rw [hn, List.append_nil, scanRest_nil] at hs
  have hlen := congrArg (fun r => (Except.toOption r).map List.length) hs
  simp [ahead, Except.map, Except.toOption] at hlen
  exact h.some hlen

theorem scanAll_written {ns : List Node} (h : ∀ n ∈ ns, Legible n) (line : Nat) :
    (∀ scanned ∈ scanAll line (ns.map Node.sourceChars), ∃ ts, scanned = .ok ts) ∧
      sound (scanAll line (ns.map Node.sourceChars)) = writtenFrom line ns := by
  induction ns generalizing line with
  | nil => exact ⟨nofun, rfl⟩
  | cons n more ih =>
    obtain ⟨hn, hmore⟩ := List.forall_mem_cons.1 h
    obtain ⟨hclean, hsound⟩ := ih hmore (line + 1)
    rw [List.map_cons, scanAll, hn.writes.scanLine_eq hn.quotes line]
    refine ⟨List.forall_mem_cons.2 ⟨⟨_, rfl⟩, hclean⟩, ?_⟩
    rw [sound, hsound, writtenFrom, List.append_assoc, List.singleton_append]

/-- **A written program has the tokens of its statements**, one statement a line. -/
theorem ofSource_programSource {ns : List Node} (h : ∀ n ∈ ns, Legible n) (he : ∀ n ∈ ns, n.is .empty = false) :
    (ofSource (Node.programSource ns)).Clean ∧ (ofSource (Node.programSource ns)).tokens = writtenFrom 1 ns := by
  have hlines : Text.lines (Node.programSource ns).toList = ns.map Node.sourceChars := by
    rw [Node.programSource, String.toList_ofList, sourceOfStatements_full he]
    refine lines_intercalate ?_ ?_ ?_ <;> intro cs hcs <;> obtain ⟨n, hn, rfl⟩ := List.mem_map.1 hcs
    · exact (h n hn).writes.single
    · exact (h n hn).writes.last
    · exact (h n hn).chars
  obtain ⟨hclean, hsound⟩ := scanAll_written h 1
  rw [ofSource, hlines]
  exact ⟨hclean, hsound⟩

end Stone
