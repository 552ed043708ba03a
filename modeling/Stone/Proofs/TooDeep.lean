/-
Programs at the limits of depth. An operator chain takes no depth, however long it is, but its text has a pair of
parentheses for every operator, and each pair takes four rules. So long sums parse and their texts do not. A call on a
call takes one level of evaluation more than the two calls in one list, which is how its text is read. So recursion
through such calls goes too deep in the program before it does in the text.

- `LongSum.source_parses`: sums parse, whatever their length.
- `LongSum.text_tooDeep`: the text of a sum with 375 operators or more nests too deep.
- `Countdown.body_tooDeep`, `Countdown.body_gives`: a recursion that takes five levels a turn, and four in its text.
- `Countdown.tooDeep_needed`: programs that go too deep have to be excused.
-/
import Stone.Proofs.RoundTrip
import Stone.Proofs.Scopes

namespace Stone

open Text TokenStream Grammar Stone.Language

/-! ## Depth of parentheses -/

section Depth

variable {l : Level} {depth line : Nat} {ts rest : List Token} {ns : List Node}

/-- a rule, by what stands at its place in the table -/
theorem Derives.at {id : RuleId} (h : Derives l.grammar depth (.rule id) ts ns rest) :
    ∃ k ms, depth = k + 1 ∧ Derives l.grammar k (.elements (elementsAt l id)) ts ms rest := by
  cases h with
  | rule h =>
    rw [elements_eq] at h
    exact ⟨_, _, rfl, h⟩

/-- the alternative that a first token chooses -/
theorem Derives.chosen_at {id alternative : RuleId} {ids : List RuleId} {more : List Element}
    (h : Derives l.grammar depth (.rule id) ts ns rest) (he : elementsAt l id = .choice ids :: more)
    (hc : l.grammar.chosen (front ts) ids = some (some alternative)) :
    ∃ k ms mid, depth = k + 1 ∧ Derives l.grammar k (.rule alternative) ts ms mid := by
  obtain ⟨k, ms, hk, h⟩ := h.at
  rw [he] at h
  cases h with
  | cons h1 _ =>
    cases h1 with
    | choice hc' h1 =>
      rw [hc] at hc'
      cases hc'
      exact ⟨k, _, _, hk, h1⟩

/-- **A pair of parentheses takes four rules**: an expression, a factor, an operand and the group. -/
theorem Derives.inside_group
    (h : Derives l.grammar depth (.rule Place.expression) (⟨line, .identifier "("⟩ :: ts) ns rest) :
    ∃ k ms mid, depth = k + 4 ∧ Derives l.grammar k (.rule Place.expression) ts ms mid := by
  obtain ⟨k, ms, rfl, he⟩ := h.at
  cases he with
  | cons he _ =>
    cases he with
    | chain hfactor _ =>
      have hopens : opens l ⟨line, .identifier "("⟩ = true := opens_mark (by decide) line
      have hprimary : l.grammar.chosen ⟨line, .identifier "("⟩ [Place.negative, Place.primary] =
          some (some Place.primary) := by
        rw [chosen_factor, hopens]
        rfl
      have hgroup : l.grammar.chosen ⟨line, .identifier "("⟩ (operandRules l) = some (some Place.grouped) := by
        rw [chosen_primary, operandRule_group]
      obtain ⟨k, _, _, rfl, hoperand⟩ := hfactor.chosen_at rfl hprimary
      obtain ⟨k, _, _, rfl, hgrouped⟩ := hoperand.chosen_at rfl hgroup
      obtain ⟨k, _, rfl, he⟩ := hgrouped.at
      cases he with
      | cons hopen he =>
        cases hopen with
        | literal _ =>
          cases he with
          | cons he _ =>
            cases he with
            | call hinner => exact ⟨k, _, _, rfl, hinner⟩

/-- a statement that begins with a parenthesis is an expression -/
theorem Derives.inside_program
    (h : Derives l.grammar depth (.rule Place.program) (⟨line, .identifier "("⟩ :: ts) ns rest) :
    ∃ k ms mid, depth = k + 3 ∧ Derives l.grammar k (.rule Place.expression) (⟨line, .identifier "("⟩ :: ts) ms mid := by
  have hopens : opens l ⟨line, .identifier "("⟩ = true := opens_mark (by decide) line
  have hstatement : l.grammar.chosen ⟨line, .identifier "("⟩ (programRules l) = some (some Place.statement) := by
    rw [chosen_program, hopens]
    cases l <;> rfl
  have hsimple : l.grammar.chosen ⟨line, .identifier "("⟩ [Place.conditional, Place.loop, Place.simple] =
      some (some Place.simple) := by
    rw [chosen_statement, hopens]
    rfl
  obtain ⟨k, _, _, rfl, hs⟩ := h.chosen_at rfl hstatement
  obtain ⟨k, _, _, rfl, hexpression⟩ := hs.chosen_at rfl hsimple
  obtain ⟨k, _, rfl, he⟩ := hexpression.at
  cases he with
  | cons he _ =>
    cases he with
    | call hinner => exact ⟨k, _, _, rfl, hinner⟩

/-- a rule that is read in one step more than its elements -/
theorem Derives.of_elements {id : RuleId} {n : Node} (h : Derives l.grammar depth (.elements (elementsAt l id)) ts ns rest)
    (hn : (buildAt id).make ns = n) : Derives l.grammar (depth + 1) (.rule id) ts [n] rest := by
  rw [← elements_eq] at h
  rw [← build_eq l] at hn
  exact hn ▸ .rule h

end Depth

/-! ## Long sums -/

namespace LongSum

/-- `1 + 1 + …` with so many operators, as a tree -/
def tree : Nat → Node
  | 0 => .leaf .number ⟨1, .number Decimal.one⟩
  | k + 1 => .list .binary [tree k, .leaf .mark ⟨1, .identifier "+"⟩, .leaf .number ⟨1, .number Decimal.one⟩]

/-- what comes after the first one -/
def tail : Nat → List Char
  | 0 => []
  | k + 1 => ' ' :: '+' :: ' ' :: '1' :: tail k

def tailLexemes : Nat → List Lexeme
  | 0 => []
  | k + 1 => .identifier "+" :: .number Decimal.one :: tailLexemes k

/-- `1 + 1 + …` with so many operators, as a text -/
def source (k : Nat) : String := String.ofList ('1' :: tail k)

theorem tail_writes (k : Nat) : Writes (tail k) (tailLexemes k) ∧ Bounded (tail k) := by
  induction k with
  | zero => exact ⟨.nil, bounded_nil⟩
  | succ k ih =>
    have hone : Writes ['1'] [.number Decimal.one] := number_writes (d := Decimal.one) rfl rfl
    have hplus : Writes ['+'] [.identifier "+"] := identifier_writes (s := "+") (.single rfl)
    exact ⟨(hplus.spaced (hone.append ih.1 ih.2)).space, bounded_cons rfl⟩

theorem no_quotes (k : Nat) : QuoteSafe (.number Decimal.one :: tailLexemes k) := by
  refine .cons (fun _ _ h => nomatch h) ?_
  induction k with
  | zero => exact .nil
  | succ k ih => exact .cons (fun _ _ h => absurd h (by decide)) (.cons (fun _ _ h => nomatch h) ih)

theorem ofSource_eq (k : Nat) : (ofSource (source k)).Clean ∧ (ofSource (source k)).tokens =
    ⟨1, .number Decimal.one⟩ :: (tokensOn 1 (tailLexemes k) ++ [Token.lineEnd 1]) := by
  have hone : Writes ['1'] [.number Decimal.one] := number_writes (d := Decimal.one) rfl rfl
  have hwrites : Writes ('1' :: tail k) (.number Decimal.one :: tailLexemes k) :=
    hone.append (tail_writes k).1 (tail_writes k).2
  have hlines : Text.lines (source k).toList = [ '1' :: tail k] := by
    rw [source, String.toList_ofList, Text.lines, pieces_single hwrites.single]
    rfl
  rw [ofSource, hlines, scanAll, hwrites.scanLine_eq (no_quotes k) 1]
  refine ⟨List.forall_mem_singleton.2 ⟨_, rfl⟩, ?_⟩
  simp [tokens, sound, scanAll]

variable {l : Level}

theorem factor_derives {rest : List Token} (hr : Uncalled l rest) :
    Derives l.grammar 3 (.rule Place.factor) (⟨1, .number Decimal.one⟩ :: rest) [tree 0] rest := by
  have hnumber : Derives l.grammar 1 (.rule Place.number) (⟨1, .number Decimal.one⟩ :: rest) [tree 0] rest :=
    .of_elements (.cons (.token rfl) .nil) rfl
  have hcalls : Derives l.grammar 1 (.elements (callElements l)) rest [] rest := by
    unfold callElements
    cases hf : l.hasFunctions with
    | false => exact .nil
    | true =>
      have hb : l.grammar.begins (front rest) Place.call = some false := by
        rw [begins_first l _ rfl]
        simpa using hr hf
      exact .cons (.repetition (.manyNil hb)) .nil
  have hprimary : Derives l.grammar 2 (.rule Place.primary) (⟨1, .number Decimal.one⟩ :: rest) [tree 0] rest := by
    refine .of_elements (.cons (.choice ?_ hnumber) hcalls) rfl
    rw [chosen_primary]
    cases l <;> rfl
  refine .of_elements (.cons (.choice ?_ hprimary) .nil) rfl
  rw [chosen_factor]
  rfl

/-- a sum goes on without further depth -/
theorem climb_derives (j k : Nat) :
    Derives l.grammar 3 (.climb Place.factor .standard .binary none (tree j))
      (tokensOn 1 (tailLexemes k) ++ [Token.lineEnd 1]) [tree (j + k)] [Token.lineEnd 1] := by
  induction k generalizing j with
  | zero => exact .climbStop nofun
  | succ k ih =>
    have hnext : ∀ p, operatorOf .standard (front (tokensOn 1 (tailLexemes k) ++ [Token.lineEnd 1])) = some p →
        yields (some ⟨3, .left⟩) p = false := by
      intro p hp
      cases k with
      | zero => cases hp
      | succ k => cases hp; rfl
    have hcall : Uncalled l (tokensOn 1 (tailLexemes k) ++ [Token.lineEnd 1]) := by
      intro _
      cases k <;> rfl
    have hstep := ih (j + 1)
    rw [Nat.add_right_comm] at hstep
    exact .climbStep (p := ⟨3, .left⟩) rfl rfl (factor_derives hcall) (.climbStop hnext) hstep

theorem program_derives (k : Nat) :
    Derives l.grammar 7 (.rule Place.program)
      (⟨1, .number Decimal.one⟩ :: (tokensOn 1 (tailLexemes k) ++ [Token.lineEnd 1])) [tree k] [] := by
  have hcall : Uncalled l (tokensOn 1 (tailLexemes k) ++ [Token.lineEnd 1]) := by
    intro _
    cases k <;> rfl
  have hclimb := climb_derives (l := l) 0 k
  rw [Nat.zero_add] at hclimb
  have hexpression : Derives l.grammar 4 (.rule Place.expression)
      (⟨1, .number Decimal.one⟩ :: (tokensOn 1 (tailLexemes k) ++ [Token.lineEnd 1])) [tree k] [Token.lineEnd 1] :=
    .of_elements (.cons (.chain (factor_derives hcall) hclimb) .nil) rfl
  have hend : Derives l.grammar 4 (.elements (if l.hasFunctions then [.optional Place.arguments] else []))
      [Token.lineEnd 1] [] [Token.lineEnd 1] := by
    cases l.hasFunctions with
    | false => exact .nil
    | true => exact .cons (.skipped (begins_arguments l _)) .nil
  have hsimple : Derives l.grammar 5 (.rule Place.simple)
      (⟨1, .number Decimal.one⟩ :: (tokensOn 1 (tailLexemes k) ++ [Token.lineEnd 1])) [tree k] [Token.lineEnd 1] :=
    .of_elements (.cons (.call hexpression) hend) rfl
  have hstatement : Derives l.grammar 6 (.rule Place.statement)
      (⟨1, .number Decimal.one⟩ :: (tokensOn 1 (tailLexemes k) ++ [Token.lineEnd 1])) [tree k] [Token.lineEnd 1] :=
    .of_elements (.cons (.choice (chosen_statement l _) hsimple) .nil) rfl
  refine .of_elements (.cons (.choice ?_ hstatement) (.cons (.literal rfl) .nil)) rfl
  rw [chosen_program]
  cases l <;> rfl

/-- **Sums parse**, whatever their length. -/
theorem source_parses (l : Level) (k : Nat) : parseProgram l (source k) = .ok [tree k] := by
  obtain ⟨hclean, htokens⟩ := ofSource_eq k
  refine parseProgram_ok.2 ⟨hclean, [tree k], ?_, ?_⟩
  · rw [htokens]
    exact .more ((program_derives k).mono (by decide)) .done
  · cases k <;> rfl

/-- the text of a sum begins with a parenthesis for each operator -/
theorem expression_depth {depth line : Nat} {rest left : List Token} {ns : List Node} (k : Nat)
    (h : Derives l.grammar depth (.rule Place.expression) (tokensOn line (tree k).lexemes ++ rest) ns left) :
    4 * k ≤ depth := by
  induction k generalizing depth rest ns left with
  | zero => exact Nat.zero_le _
  | succ k ih =>
    rw [tree, Node.lexemes_binary, tokensOn_inParens, tokensOn_append, List.append_assoc] at h
    obtain ⟨inner, _, _, rfl, hinner⟩ := h.inside_group
    have := ih hinner
    omega

theorem fits (l : Level) (k : Nat) : Fits l Token.Scanned .program (tree k) := by
  refine .statement (.simple ?_)
  induction k with
  | zero => exact .number ⟨rfl, rfl⟩
  | succ k ih => exact .binary ih (.number ⟨rfl, rfl⟩) (.single rfl) rfl

theorem ordinary (k : Nat) : (tree k).Ordinary := by
  have hnames : (tree k).names = [] := by
    induction k with
    | zero => rfl
    | succ k ih => simp [tree, Node.names, Node.definedNames, Node.namesOfAll, ih]
  intro s hs
  rw [hnames] at hs
  cases hs

/-- **Texts of long sums nest too deep.** -/
theorem text_tooDeep (l : Level) (k : Nat) (hk : 375 ≤ k) :
    ∃ line, parseProgram l (Node.programSource [tree k]) = .error (.raised (.tooDeep line)) := by
  have hplain := (fits l k).ordinary (ordinary k)
  have hquotes := quoteSafe_of_not_mem hplain.no_quote
  have hempty : (tree k).is .empty = false := by cases k <;> rfl
  have hlegible : Legible (tree k) := ⟨(fits l k).writes, hquotes, (fits l k).program_head hempty⟩
  have hone : ∀ {p : Node → Prop}, p (tree k) → ∀ n ∈ [tree k], p n := fun h => List.forall_mem_singleton.2 h
  rcases parseProgram_rendered (hone (fits l k)) (hone hempty) (hone ((fits l k).ordinary_isClear (ordinary k)))
    (hone hquotes) with h | h
  · obtain ⟨-, raw, hraw, -⟩ := parseProgram_ok.1 h
    obtain ⟨k, rfl⟩ : ∃ j, k = j + 1 := ⟨k - 1, by omega⟩
    rw [(ofSource_programSource (hone hlegible) (hone hempty)).2, writtenFrom] at hraw
    -- the statement is an expression in three rules, and so many groups
    generalize htokens : tokensOn 1 (tree (k + 1)).lexemes ++ Token.lineEnd 1 :: writtenFrom 2 [] = ts at hraw
    cases hraw with
    | done => simp [tree, Node.lexemes_binary, inParens] at htokens
    | more hd _ =>
      subst htokens
      have hfirst : ∃ more, tokensOn 1 (tree (k + 1)).lexemes ++ Token.lineEnd 1 :: writtenFrom 2 [] =
          ⟨1, .identifier "("⟩ :: more := by
        rw [tree, Node.lexemes_binary, tokensOn_inParens]
        exact ⟨_, rfl⟩
      obtain ⟨more, hmore⟩ := hfirst
      rw [hmore] at hd
      obtain ⟨depth, _, _, hdepth, hinner⟩ := hd.inside_program
      rw [← hmore] at hinner
      have := expression_depth (k + 1) hinner
      have : maxNesting = 1500 := rfl
      omega
  · exact h

/-- a program whose text is not a program: with 400 operators it parses, and its text does not -/
theorem four_hundred_not_reparsed :
    ∃ ns, parseProgram .closures (source 400) = .ok ns ∧ ¬ ∃ ms, parseProgram .closures (Node.programSource ns) = .ok ms := by
  refine ⟨[tree 400], source_parses .closures 400, ?_⟩
  rintro ⟨ms, hms⟩
  obtain ⟨line, hdeep⟩ := text_tooDeep .closures 400 (by decide)
  rw [hdeep] at hms
  cases hms

end LongSum

/-! ## A countdown -/

namespace Countdown

open Evaluation

/-- a function that calls itself on the number before and calls what that gives on zero; on zero it gives itself -/
def source : String :=
  "def f (n) \x7b if n \x7b (f(n - 1))(0) \x7d else \x7b f \x7d \x7d\n(f(599))(0)"

def whole (k : Nat) (hk : k < coefficientBound) : Decimal := ⟨false, k, 0, hk, Nat.zero_le _⟩

/-- where the program begins to count -/
def start : Decimal := whole 599 (by decide)

def name (line : Nat) (s : String) : Node := .leaf .name ⟨line, .identifier s⟩

def number (line : Nat) (d : Decimal) : Node := .leaf .number ⟨line, .number d⟩

/-- `f` called on something and the result called on zero: a call on a call, or both calls merged into one list -/
def twice (merged : Bool) (line : Nat) (argument : Node) : Node :=
  let first : Node := .list .arguments [argument]
  let second : Node := .list .arguments [number line Decimal.zero]
  if merged then .list .primary [name line "f", first, second]
  else .list .primary [.list .primary [name line "f", first], second]

/-- `n - 1` -/
def before : Node := .list .binary [name 1 "n", .leaf .mark ⟨1, .identifier "-"⟩, number 1 Decimal.one]

def params : Node := .list .parameters [name 1 "n"]

/-- the choice between the next turn and the end -/
def choice (merged : Bool) : Node :=
  .list .conditional [name 1 "n", .list .block [twice merged 1 before], .list .block [name 1 "f"]]

def body (merged : Bool) : Node := .list .block [choice merged]

def function (merged : Bool) : Function := ⟨0, some "f", params, body merged, 0⟩

/-- the program as it is written, with calls on calls, and as its text is read, with merged ones -/
def program (merged : Bool) : List Node :=
  [.list .definition [.leaf .mark ⟨1, .identifier "f"⟩, params, body merged], twice merged 2 (number 2 start)]

theorem source_parses : parseProgram .closures source = .ok (program false) := by
  cbv

theorem text_parses : parseProgram .closures (Node.programSource (program false)) = .ok (program true) := by
  cbv

/-! ### Heaps along the way -/

/-- the global scope holds the function -/
structure Ready (merged : Bool) (h : Heap) : Prop where
  size : 0 < h.scopes.size
  outermost : h.outer? 0 = none
  bound : (h.scope 0).get? "f" = some (.function (function merged))

/-- a scope made by a call of the function on this number -/
structure Frame (merged : Bool) (h : Heap) (s : ScopeId) (d : Decimal) : Prop where
  ready : Ready merged h
  lt : s < h.scopes.size
  outer : h.outer? s = some 0
  scope_eq : h.scope s = { bindings := [("n", .number d)], outer := some 0 }

variable {merged : Bool} {h : Heap} {s : ScopeId} {d : Decimal} {rounds depth k : Nat} {hk : k < coefficientBound}

theorem Ready.get (hr : Ready merged h) : h.get? 0 "f" = some (.function (function merged)) := by
  rw [Heap.get?_step, hr.bound, Option.some_or]

theorem Frame.get_n (hf : Frame merged h s d) : h.get? s "n" = some (.number d) := by
  rw [Heap.get?_step, hf.scope_eq]
  rfl

theorem Frame.get_f (hf : Frame merged h s d) : h.get? s "f" = some (.function (function merged)) := by
  rw [Heap.get?_step, hf.scope_eq, hf.outer, Option.bind_some, hf.ready.get]
  rfl

theorem Ready.newScope (hr : Ready merged h) : Ready merged (h.newScope (some 0)).2 := by
  have hne : 0 ≠ h.scopes.size := Nat.ne_of_lt hr.size
  refine ⟨?_, ?_, ?_⟩
  · rw [Heap.size_newScope]
    exact Nat.succ_pos _
  · rw [Heap.outer?_newScope_ne hne, hr.outermost]
  · rw [Heap.scope_newScope_ne hne, hr.bound]

theorem Frame.newScope (hf : Frame merged h s d) : Frame merged (h.newScope (some 0)).2 s d := by
  have hne : s ≠ h.scopes.size := Nat.ne_of_lt hf.lt
  refine ⟨hf.ready.newScope, ?_, ?_, ?_⟩
  · rw [Heap.size_newScope]
    exact Nat.lt_succ_of_lt hf.lt
  · rw [Heap.outer?_newScope_ne hne, hf.outer]
  · rw [Heap.scope_newScope_ne hne, hf.scope_eq]

/-- a call binds its number in a new scope -/
theorem Ready.enter (hr : Ready merged h) (d : Decimal) :
    Frame merged ((h.newScope (some 0)).2.putNew h.scopes.size "n" (.number d)) h.scopes.size d := by
  have hne : 0 ≠ h.scopes.size := Nat.ne_of_lt hr.size
  have hlt : h.scopes.size < (h.newScope (some 0)).2.scopes.size := by
    rw [Heap.size_newScope]
    exact Nat.lt_succ_self _
  refine ⟨⟨?_, ?_, ?_⟩, ?_, ?_, ?_⟩
  · rw [Heap.size_putNew]
    exact hr.newScope.size
  · rw [Heap.outer?_putNew, hr.newScope.outermost]
  · rw [Heap.scope_putNew_ne hne, hr.newScope.bound]
  · rwa [Heap.size_putNew]
  · rw [Heap.outer?_putNew, Heap.outer?_newScope_self]
    simpa using hr.size
  · rw [Heap.scope_putNew_self hlt, Heap.scope_newScope_self]
    rfl

/-! ### One turn -/

theorem run_number {line : Nat} : (evaluate rounds (depth + 1) (number line d) s).run h = .ok (.number d) h := rfl

theorem run_name {line : Nat} {x : String} {v : Value} (hx : h.get? s x = some v) :
    (evaluate rounds (depth + 1) (name line x) s).run h = .ok v h := by
  rw [evaluate, name, evalNode, lift_self, run_evalLeaf_name]
  simp only [Token.text, hx]
  rfl

theorem whole_sub_one (hk : k + 1 < coefficientBound) :
    (whole (k + 1) hk).sub Decimal.one = some (whole k (Nat.lt_of_succ_lt hk)) := by
  simp [Decimal.sub, Decimal.ofScaled, Decimal.nearest, Decimal.largestPlaces, Decimal.divHalfEven, Decimal.ofParts?,
    Decimal.isZero, Decimal.commonScale, Decimal.numeratorAt, Decimal.numerator, Decimal.one, whole, Nat.mod_one,
    Nat.lt_of_succ_lt hk]

theorem run_before {hk : k + 1 < coefficientBound} (hf : Frame merged h s (whole (k + 1) hk)) :
    (evaluate rounds (depth + 2) before s).run h = .ok (.number (whole k (Nat.lt_of_succ_lt hk))) h := by
  have hn : (evaluate rounds (depth + 1) (name 1 "n") s).run h = .ok (.number (whole (k + 1) hk)) h := run_name hf.get_n
  have hminus : Operator.ofSymbol? "-" = some .subtract := rfl
  have hsub : ∀ line, applyOperator .subtract (.number (whole (k + 1) hk)) (.number Decimal.one) line =
      .ok (.number (whole k (Nat.lt_of_succ_lt hk))) := by
    intro line
    show applyToNumbers .subtract (whole (k + 1) hk) Decimal.one line = _
    rw [applyToNumbers, whole_sub_one, inRange]
  rw [evaluate, before, evalNode, evalBinary]
  simp only [Node.child?, Node.children, List.getElem?_cons_zero, List.getElem?_cons_succ, Option.bind_some,
    Node.token?, Token.text, need, lift_self, pure_bind, hminus, EStateM.run_bind, hn, run_number, hsub]
  rfl

theorem evaluate_block {n : Node} (hn : n.is .empty = false) :
    evaluate rounds (depth + 1) (.list .block [n]) s = evaluate rounds depth n s := by
  rw [evaluate, evalNode]
  simp only [evalStatements, hn, Bool.false_eq_true, if_false, bind_pure]

/-- the body takes three levels down to its last statement -/
theorem run_body (hf : Frame merged h s (whole k hk)) :
    (evaluate rounds (depth + 3) (body merged) s).run h =
      (evaluate rounds depth (if k = 0 then name 1 "f" else twice merged 1 before) s).run h := by
  have hn : (evaluate rounds (depth + 1) (name 1 "n") s).run h = .ok (.number (whole k hk)) h := run_name hf.get_n
  have htwice : (twice merged 1 before).is .empty = false := by cases merged <;> rfl
  rw [body, evaluate_block rfl, choice, evaluate, evalNode, evalConditional]
  simp only [Node.child?, Node.children, List.getElem?_cons_zero, List.getElem?_cons_succ, need, lift_self, pure_bind,
    EStateM.run_bind, hn]
  cases k with
  | zero =>
    rw [if_pos rfl]
    exact congrArg (EStateM.run · h) (evaluate_block rfl)
  | succ k =>
    rw [if_neg (Nat.succ_ne_zero k)]
    exact congrArg (EStateM.run · h) (evaluate_block htwice)

/-- a call goes on in the body, in a scope of its own -/
theorem run_call {eval : Node → ScopeId → Evaluation Value} {argument : Node} (line : Option Nat)
    (hr : Ready merged h)
    (ha : (eval argument s).run (h.newScope (some 0)).2 = .ok (.number d) (h.newScope (some 0)).2) :
    ∃ u h', Frame merged h' u d ∧
      (call eval (.function (function merged)) [argument] s line).run h = (eval (body merged) u).run h' := by
  refine ⟨_, _, hr.enter d, ?_⟩
  have harity : ¬[argument].length ≠ (function merged).arity := not_not.2 rfl
  have hnames : (function merged).paramNames = ["n"] := rfl
  have hscope : (modifyGet (Heap.newScope (some (function merged).scope)) : Evaluation ScopeId).run h =
      .ok h.scopes.size (h.newScope (some 0)).2 := rfl
  rw [call, if_neg harity, hnames]
  simp only [List.zip_cons_cons, List.zip_nil_left, bindArguments, lift_self, EStateM.run_bind, hscope, ha]
  rfl

/-- the first of some calls -/
theorem run_first_call (line : Nat) {argument : Node} (more : List Node) (hr : Ready merged h)
    (hget : h.get? s "f" = some (.function (function merged)))
    (ha : (evaluate rounds (depth + 1) argument s).run (h.newScope (some 0)).2 =
      .ok (.number d) (h.newScope (some 0)).2) :
    ∃ u h', Frame merged h' u d ∧
      (evaluate rounds (depth + 2) (.list .primary (name line "f" :: .list .arguments [argument] :: more)) s).run h =
        (evaluate rounds (depth + 1) (body merged) u >>= fun v =>
          evalCalls (evaluate rounds (depth + 1)) s (some line) v more).run h' := by
  obtain ⟨u, h', hf, hcall⟩ := run_call (some line) hr ha
  refine ⟨u, h', hf, ?_⟩
  have hname : (evaluate rounds (depth + 1) (name line "f") s).run h = .ok (.function (function merged)) h :=
    run_name hget
  rw [evaluate, evalNode, EStateM.run_bind, hname, EStateM.run_bind, ← hcall]
  show EStateM.run (evalCalls _ s (some line) _ _) h = _
  rw [evalCalls, EStateM.run_bind]

/-- a call on a call: the inner one is a tree of its own, and if it goes too deep the outer one is not made -/
theorem run_unmerged {line : Nat} {argument : Node} (hr : Ready false h)
    (hget : h.get? s "f" = some (.function (function false)))
    (ha : (evaluate rounds (depth + 1) argument s).run (h.newScope (some 0)).2 =
      .ok (.number d) (h.newScope (some 0)).2)
    (hbody : ∀ u h', Frame false h' u d →
      ∃ line h'', (evaluate rounds (depth + 1) (body false) u).run h' = .error (.raised (.tooDeep line)) h'') :
    ∃ line' h', (evaluate rounds (depth + 3) (twice false line argument) s).run h =
      .error (.raised (.tooDeep line')) h' := by
  obtain ⟨u, h', hu, hcall⟩ := run_first_call line [] hr hget ha
  obtain ⟨line', h'', hdeep⟩ := hbody u h' hu
  refine ⟨line', h'', ?_⟩
  rw [twice, if_neg Bool.false_ne_true, evaluate, evalNode, EStateM.run_bind, hcall, EStateM.run_bind, hdeep]

/-- on zero the function gives itself -/
theorem run_zero {hk : 0 < coefficientBound} (hf : Frame merged h s (whole 0 hk)) :
    (evaluate rounds (depth + 4) (body merged) s).run h = .ok (.function (function merged)) h := by
  rw [run_body hf]
  exact run_name hf.get_f

/-- merged calls: both are made from the same level -/
theorem run_merged {line : Nat} {argument : Node} (hr : Ready true h)
    (hget : h.get? s "f" = some (.function (function true)))
    (ha : (evaluate rounds (depth + 4) argument s).run (h.newScope (some 0)).2 =
      .ok (.number d) (h.newScope (some 0)).2)
    (hbody : ∀ u h', Frame true h' u d →
      ∃ h'', (evaluate rounds (depth + 4) (body true) u).run h' = .ok (.function (function true)) h'' ∧ Ready true h'') :
    ∃ h', (evaluate rounds (depth + 5) (twice true line argument) s).run h = .ok (.function (function true)) h' ∧
      Ready true h' := by
  obtain ⟨u, h', hu, hfirst⟩ := run_first_call line [.list .arguments [number line Decimal.zero]] hr hget ha
  obtain ⟨h'', hgives, hr''⟩ := hbody u h' hu
  have hzero : (evaluate rounds (depth + 4) (number line Decimal.zero) s).run (h''.newScope (some 0)).2 =
      .ok (.number (whole 0 (by decide))) (h''.newScope (some 0)).2 := run_number
  obtain ⟨w, k, hw, hsecond⟩ := run_call (some line) hr'' hzero
  refine ⟨k, ?_, hw.ready⟩
  rw [twice, if_pos rfl, hfirst, EStateM.run_bind, hgives]
  show EStateM.run (evalCalls _ s _ _ _) h'' = _
  rw [evalCalls, EStateM.run_bind, hsecond, run_zero hw]
  rfl

/-! ### All turns -/

/-- **With calls on calls a turn takes five levels.** -/
theorem body_tooDeep (hf : Frame false h s (whole k hk)) (hd : depth = 5 * k + 3) :
    ∃ line h', (evaluate rounds depth (body false) s).run h = .error (.raised (.tooDeep line)) h' := by
  subst hd
  induction k generalizing h s with
  | zero =>
    rw [run_body hf]
    exact ⟨_, _, rfl⟩
  | succ k ih =>
    rw [Nat.mul_succ, Nat.add_right_comm, run_body hf, if_neg (Nat.succ_ne_zero k)]
    exact run_unmerged hf.ready hf.get_f (run_before hf.newScope) fun u h' hu => ih hu

/-- **With merged calls it takes four.** -/
theorem body_gives (hf : Frame true h s (whole k hk)) (hd : 4 * k + 4 ≤ depth) :
    ∃ h', (evaluate rounds depth (body true) s).run h = .ok (.function (function true)) h' ∧ Ready true h' := by
  induction k generalizing h s depth with
  | zero =>
    obtain ⟨depth, rfl⟩ := Nat.exists_eq_add_of_le' hd
    exact ⟨h, run_zero hf, hf.ready⟩
  | succ k ih =>
    obtain ⟨depth, rfl⟩ : ∃ e, depth = (e + 5) + 3 := ⟨depth - 8, by omega⟩
    rw [run_body hf, if_neg (Nat.succ_ne_zero k)]
    exact run_merged hf.ready hf.get_f (run_before hf.newScope) fun u h' hu => ih hu (by omega)

/-! ### The whole program -/

/-- the heap after the definition -/
def defined (merged : Bool) : Heap := ⟨#[⟨[("f", .function (function merged))], none⟩], 1⟩

theorem ready_defined (merged : Bool) : Ready merged (defined merged) := ⟨Nat.one_pos, rfl, rfl⟩

theorem evalNodes_program (merged : Bool) :
    (Session.new .closures).evalNodes (program merged) =
      match (evaluate maxRounds maxEvaluation (twice merged 2 (number 2 start)) 0).run (defined merged) with
      | .ok v h => (.ok [.string "f", v], ⟨.closures, h, 0⟩)
      | .error e h => (.error (e.map .eval), ⟨.closures, h, 0⟩) := by
  have hdefinition : (Session.new .closures).evalNode
      (.list .definition [.leaf .mark ⟨1, .identifier "f"⟩, params, body merged]) =
      (.ok (.string "f"), ⟨.closures, defined merged, 0⟩) := rfl
  rw [program, Session.evalNodes, hdefinition]
  simp only [Session.evalNodes, Session.evalNode]
  cases (evaluate maxRounds maxEvaluation (twice merged 2 (number 2 start)) 0).run (defined merged) <;> rfl

theorem source_tooDeep :
    ∃ line, ((Session.new .closures).evalSource source).1 = .error (.raised (.eval (.tooDeep line))) := by
  have hbody : ∀ u h, Frame false h u start → ∃ line h',
      (evaluate maxRounds 2998 (body false) u).run h = .error (.raised (.tooDeep line)) h' :=
    fun u h hu => body_tooDeep hu rfl
  obtain ⟨line, h, hdeep⟩ : ∃ line h, (evaluate maxRounds 3000 (twice false 2 (number 2 start)) 0).run (defined false) =
      .error (.raised (.tooDeep line)) h :=
    run_unmerged (ready_defined false) (ready_defined false).get run_number hbody
  have hsource : (Session.new .closures).evalSource source = (Session.new .closures).evalNodes (program false) :=
    evalSource_eq source_parses
  rw [hsource, evalNodes_program, maxEvaluation, hdeep]
  exact ⟨line, rfl⟩

theorem text_gives :
    ((Session.new .closures).evalSource (Node.programSource (program false))).1 =
      .ok [.string "f", .function (function true)] := by
  have hbody : ∀ u h, Frame true h u start → ∃ h',
      (evaluate maxRounds 2999 (body true) u).run h = .ok (.function (function true)) h' ∧ Ready true h' :=
    fun u h hu => body_gives hu (by decide)
  obtain ⟨h, hgives, -⟩ : ∃ h, (evaluate maxRounds 3000 (twice true 2 (number 2 start)) 0).run (defined true) =
      .ok (.function (function true)) h ∧ Ready true h :=
    run_merged (ready_defined true) (ready_defined true).get run_number hbody
  have htext : (Session.new .closures).evalSource (Node.programSource (program false)) =
      (Session.new .closures).evalNodes (program true) := evalSource_eq text_parses
  rw [htext, evalNodes_program, maxEvaluation, hgives]

/-- **Programs that go too deep have to be excused.** Counting down from 599 takes 2401 levels with the calls as they are
read from the text, which goes on to the end, and with the calls as they are written more than the 3000 that there are.
-/
theorem tooDeep_needed :
    ∃ ns, parseProgram .closures source = .ok ns ∧ (∀ n ∈ ns, n.isClear .closures = true) ∧
      (∀ n ∈ ns, QuoteSafe n.lexemes) ∧ (∃ ms, parseProgram .closures (Node.programSource ns) = .ok ms) ∧
      ¬ SameOutcome ((Session.new .closures).evalSource source).1
          ((Session.new .closures).evalSource (Node.programSource ns)).1 := by
  refine ⟨_, source_parses, by decide, by decide, ⟨_, text_parses⟩, ?_⟩
  obtain ⟨line, hdeep⟩ := source_tooDeep
  rw [hdeep, text_gives]
  exact id

end Countdown

end Stone
