/-
Texts on other lines. Scanning and parsing put line numbers into tokens, trees and errors and look at them nowhere, so
they go along with every change of the numbers. Only the end of input is on no line, whose number has to stay.

- `scanAll_relined`: the lines of a text further down.
- `Relined.bind`: actions that go along with a change of line numbers, one after another.
- `relined_parseRule`, `relined_parseStatement`: parsing does.
-/
import Stone.Proofs.Programs

namespace Stone

open TokenStream Parsing Grammar

/-! ## Scanning -/

def ScanError.mapLine (f : Nat → Nat) : ScanError → ScanError
  | badToken line column => badToken (f line) column
  | badNumber line text => badNumber (f line) text

/-- a scanned line with its number changed -/
def relinedLine (f : Nat → Nat) : Except ScanError (List Token) → Except ScanError (List Token)
  | .ok ts => .ok (ts.map (Token.mapLine f))
  | .error e => .error (e.mapLine f)

theorem tokens_relined (f : Nat → Nat) (item : Item) (line : Nat) :
    item.tokens (f line) = relinedLine f (item.tokens line) := by
  cases item with
  | comment => rfl
  | digits run =>
    simp only [Item.tokens]
    cases Decimal.readPlain? run <;> rfl
  | quoted enclosed => rfl
  | spelled text => rfl

/-- **The number of a line goes into its tokens and its errors**, and nowhere else. -/
theorem scanRest_relined (f : Nat → Nat) (line width : Nat) (cs : List Char) :
    scanRest (f line) width cs = relinedLine f (scanRest line width cs) := by
  fun_induction scanRest line width cs with
  | case1 cs hd =>
    rw [scanRest_eq, hd]
    rfl
  | case2 cs c rest hd hn =>
    rw [scanRest_eq, hd]
    simp only [hn]
    rfl
  | case3 cs c rest hd item after hn ih =>
    rw [scanRest_eq, hd]
    simp only [hn, tokens_relined f item line, ih]
    cases item.tokens line with
    | error e => rfl
    | ok first =>
      cases scanRest line width after with
      | error e => rfl
      | ok others => exact congrArg Except.ok (List.map_append).symm

/-- line numbers moved down; the end of input stays on no line -/
def moved (lines n : Nat) : Nat := if n = 0 then 0 else n + lines

theorem moved_zero (lines : Nat) : moved lines 0 = 0 := rfl

/-- a text that stands further down -/
theorem scanAll_relined (k : Nat) {first : Nat} (h : 0 < first) (texts : List (List Char)) :
    scanAll (first + k) texts = (scanAll first texts).map (relinedLine (moved k)) := by
  induction texts generalizing first with
  | nil => rfl
  | cons cs texts ih =>
    have hmoved : first + k = moved k first := by
      rw [moved, if_neg (by omega)]
    rw [scanAll, scanAll, List.map_cons, Nat.add_right_comm, ih (Nat.succ_pos first), scanLine, hmoved,
      scanRest_relined]
    rfl

/-! ## Actions -/

def ParseError.mapLine (f : Nat → Nat) : ParseError → ParseError
  | unexpected t expected => unexpected (t.mapLine f) expected
  | tooDeep line => tooDeep (f line)
  | scan e => scan (e.mapLine f)

def TokenStream.mapLines (f : Nat → Nat) (s : TokenStream) : TokenStream :=
  ⟨s.waiting.map (Token.mapLine f), s.lines.map (relinedLine f)⟩

section Actions

variable {α β γ δ : Type} {f : Nat → Nat}

/-- an end of an action with the line numbers changed -/
def relinedEnd (f : Nat → Nat) (m : α → β) : Ending α → Ending β
  | .ok a s => .ok (m a) (s.mapLines f)
  | .error e s => .error (e.map (ParseError.mapLine f)) (s.mapLines f)

/-- on a stream with other line numbers the second action does what the first one does, with these numbers -/
def Relined (f : Nat → Nat) (m : α → β) (p : Parsing α) (q : Parsing β) : Prop :=
  ∀ s, q.run (s.mapLines f) = relinedEnd f m (p.run s)

namespace Relined

theorem pure (m : α → β) (a : α) : Relined f m (Pure.pure a) (Pure.pure (m a)) := fun _ => rfl

theorem fail (m : α → β) (e : ParseError) : Relined f m (Parsing.fail e) (Parsing.fail (e.mapLine f)) := fun _ => rfl

theorem endless (m : α → β) : Relined f m (throw .endless) (throw .endless) := fun _ => rfl

/-- **One action after another.** -/
theorem bind {m : α → β} {m' : γ → δ} {p : Parsing α} {q : Parsing β} {k : α → Parsing γ} {k' : β → Parsing δ}
    (hp : Relined f m p q) (hk : ∀ a, Relined f m' (k a) (k' (m a))) : Relined f m' (p >>= k) (q >>= k') := by
  intro s
  rw [EStateM.run_bind, EStateM.run_bind, hp s]
  cases p.run s with
  | ok a s' => exact hk a s'
  | error e s' => rfl

theorem lookAhead_relined (hf : f 0 = 0) (waiting : List Token) (lines : List (Except ScanError (List Token))) :
    lookAhead 0 (waiting.map (Token.mapLine f)) (lines.map (relinedLine f)) =
      match lookAhead 0 waiting lines with
      | (.ok t, s) => (.ok (t.mapLine f), s.mapLines f)
      | (.error e, s) => (.error (e.mapLine f), s.mapLines f) := by
  have hend : Token.inputEnd.mapLine f = Token.inputEnd := congrArg (Token.mk · .inputEnd) hf
  induction lines generalizing waiting with
  | nil =>
    cases waiting with
    | nil => simp [lookAhead, TokenStream.mapLines, hend]
    | cons t ts => simp [lookAhead, TokenStream.mapLines]
  | cons line lines ih =>
    cases waiting with
    | cons t ts => simp [lookAhead, TokenStream.mapLines]
    | nil =>
      cases line with
      | error e => rfl
      | ok ts => exact ih ts

theorem peek (hf : f 0 = 0) : Relined f (Token.mapLine f) Parsing.peek Parsing.peek := by
  intro s
  have h := lookAhead_relined hf s.waiting s.lines
  simp only [Parsing.peek, ofStream, EStateM.run, TokenStream.peek, TokenStream.mapLines, h]
  rcases lookAhead 0 s.waiting s.lines with ⟨e | t, s'⟩ <;> rfl

theorem read (hf : f 0 = 0) : Relined f (Token.mapLine f) Parsing.read Parsing.read := by
  intro s
  have h := lookAhead_relined hf s.waiting s.lines
  simp only [Parsing.read, ofStream, EStateM.run, TokenStream.read, TokenStream.peek, TokenStream.mapLines, h]
  rcases lookAhead 0 s.waiting s.lines with ⟨e | t, s'⟩
  · rfl
  · simp only [relinedEnd, TokenStream.mapLines, List.map_tail]

end Relined

end Actions

/-! ## Parsing -/

section Parse

variable {f : Nat → Nat}

theorem isLiteral_mapLine (f : Nat → Nat) (t : Token) : (t.mapLine f).isLiteral = t.isLiteral := rfl

theorem accepts_mapLine (f : Nat → Nat) (cls : TokenClass) (t : Token) :
    cls.accepts (t.mapLine f) = cls.accepts t := rfl

theorem relined_firstMatch {ask : RuleId → Parsing Bool} (h : ∀ rule, Relined f id (ask rule) (ask rule))
    (ids : List RuleId) :
    Relined f id (firstMatch ask ids) (firstMatch ask ids) := by
  induction ids with
  | nil => exact .pure id none
  | cons first more ih =>
    refine .bind (h first) fun b => ?_
    cases b with
    | true => exact .pure id (some first)
    | false => exact ih

/-- what can begin is decided without line numbers -/
theorem relined_canBegin (hf : f 0 = 0) (g : Grammar) (rule : RuleId) :
    Relined f id (g.canBegin rule) (g.canBegin rule) := by
  suffices h : ∀ steps rule, Relined f id (g.canBeginWithin steps rule) (g.canBeginWithin steps rule) from h _ rule
  intro steps
  induction steps with
  | zero => exact fun _ => .endless id
  | succ steps ih =>
    intro rule
    rw [canBeginWithin]
    cases (g.rule rule).elements with
    | nil => exact .pure id true
    | cons first more =>
      cases first with
      | rule next => exact ih next
      | optional next => exact ih next
      | many next => exact ih next
      | operators next table kind => exact ih next
      | choice ids => exact .bind (relined_firstMatch ih ids) fun o => .pure id o.isSome
      | token cls kind => exact .bind (.peek hf) fun t => .pure id (cls.accepts t)
      | literal texts keep => exact .bind (.peek hf) fun t => .pure id (texts.any t.isLiteral)

theorem relined_nextOperator (hf : f 0 = 0) (table : OperatorTable) :
    Relined f id (nextOperator table) (nextOperator table) := by
  refine .bind (.peek hf) fun t => ?_
  rw [Token.lexeme_mapLine]
  cases t.lexeme <;> exact .pure id _

theorem relined_parseMany {ask : Parsing Bool} {parse : Parsing Node} (ha : Relined f id ask ask)
    (hp : Relined f (Node.mapLines f) parse parse) (budget : Nat) :
    Relined f (List.map (Node.mapLines f)) (parseMany ask parse budget) (parseMany ask parse budget) := by
  induction budget with
  | zero => exact .endless _
  | succ budget ih =>
    refine .bind ha fun b => ?_
    cases b with
    | false => exact .pure _ []
    | true =>
      refine .bind hp fun n => .bind ih fun more => ?_
      rw [Node.isVacuous_mapLines]
      cases n.isVacuous with
      | true => exact .pure _ more
      | false => exact .pure _ (n :: more)

theorem relined_climb (hf : f 0 = 0) {operand : Parsing Node} (h : Relined f (Node.mapLines f) operand operand)
    (table : OperatorTable) (kind : ListKind) (budget : Nat) (waiting : Option Precedence) (left : Node) :
    Relined f (Node.mapLines f) (climb table kind operand budget waiting left)
      (climb table kind operand budget waiting (left.mapLines f)) := by
  induction budget generalizing waiting left with
  | zero => exact .endless _
  | succ budget ih =>
    refine .bind (relined_nextOperator hf table) fun o => ?_
    cases o with
    | none => exact .pure _ left
    | some p =>
      simp only [id_eq]
      cases yields waiting p with
      | false => exact .pure _ left
      | true =>
        refine .bind (.read hf) fun op => .bind h fun first => .bind (ih (some p) first) fun right => ?_
        have hnext := ih waiting (kind.build [left, .leaf .mark op, right])
        rwa [mapLines_build] at hnext

theorem relined_parseElement (hf : f 0 = 0) (g : Grammar) (budget : Nat) {parse : RuleId → Parsing Node}
    (h : ∀ rule, Relined f (Node.mapLines f) (parse rule) (parse rule)) (e : Element) :
    Relined f (List.map (Node.mapLines f)) (g.parseElement budget parse e) (g.parseElement budget parse e) := by
  cases e with
  | rule next => exact .bind (h next) fun n => .pure _ [n]
  | choice ids =>
    refine .bind (relined_firstMatch (relined_canBegin hf g) ids) fun o => ?_
    cases o with
    | some next => exact .bind (h next) fun n => .pure _ [n]
    | none => exact .bind (.peek hf) fun t => .fail _ (.unexpected t none)
  | optional next =>
    refine .bind (relined_canBegin hf g next) fun b => ?_
    cases b with
    | false => exact .pure _ []
    | true =>
      refine .bind (h next) fun n => ?_
      rw [Node.isVacuous_mapLines]
      cases n.isVacuous with
      | true => exact .pure _ []
      | false => exact .pure _ [n]
  | many next => exact relined_parseMany (relined_canBegin hf g next) (h next) budget
  | token cls kind =>
    refine .bind (.read hf) fun t => ?_
    rw [accepts_mapLine]
    cases cls.accepts t with
    | true => exact .pure _ [Node.leaf kind t]
    | false => exact .fail _ (.unexpected t none)
  | literal texts keep =>
    refine .bind (.read hf) fun t => ?_
    rw [isLiteral_mapLine]
    cases texts.any t.isLiteral with
    | false => exact .fail _ (.unexpected t texts.head?)
    | true =>
      cases keep with
      | true => exact .pure _ [Node.leaf .mark t]
      | false => exact .pure _ []
  | operators next table kind =>
    exact .bind (h next) fun first =>
      .bind (relined_climb hf (h next) table kind budget none first) fun n => .pure _ [n]

theorem relined_parseElements (hf : f 0 = 0) (g : Grammar) (budget : Nat) {parse : RuleId → Parsing Node}
    (h : ∀ rule, Relined f (Node.mapLines f) (parse rule) (parse rule)) (es : List Element) :
    Relined f (List.map (Node.mapLines f)) (g.parseElements budget parse es) (g.parseElements budget parse es) := by
  induction es with
  | nil => exact .pure _ []
  | cons e es ih =>
    refine .bind (relined_parseElement hf g budget h e) fun first => .bind ih fun others => ?_
    rw [← List.map_append]
    exact .pure _ (first ++ others)

/-- **Parsing goes along with a change of line numbers.** -/
theorem relined_parseRule (hf : f 0 = 0) (g : Grammar) (budget nesting : Nat) (rule : RuleId) :
    Relined f (Node.mapLines f) (g.parseRule budget nesting rule) (g.parseRule budget nesting rule) := by
  induction nesting generalizing rule with
  | zero => exact .bind (.peek hf) fun t => .fail _ (.tooDeep t.line)
  | succ nesting ih =>
    refine .bind (relined_parseElements hf g budget ih (g.rule rule).elements) fun ns => ?_
    rw [← mapLines_make]
    exact .pure _ ((g.rule rule).build.make ns)

theorem TokenStream.size_mapLines (f : Nat → Nat) (s : TokenStream) : (s.mapLines f).size = s.size := by
  have hline : ∀ line, lineSize (relinedLine f line) = lineSize line := by
    intro line
    cases line with
    | ok ts => exact congrArg (· + 1) (List.length_map _)
    | error e => rfl
  simp only [size, TokenStream.mapLines, List.length_map, List.foldr_map, hline]

theorem relined_parseStatement (hf : f 0 = 0) (l : Language) :
    Relined f (Node.mapLines f) l.parseStatement l.parseStatement := by
  intro s
  rw [Language.parseStatement, run_parse, run_parse, TokenStream.size_mapLines]
  exact relined_parseRule hf l.grammar _ maxNesting _ s

theorem relined_atEnd (hf : f 0 = 0) : Relined f id Language.atEnd Language.atEnd :=
  .bind (.peek hf) fun t => .pure id t.isInputEnd

end Parse

end Stone
