/-
The documented grammar is accepted. Parsing looks one token ahead and never goes back, so it takes whatever can go on
for a part of what it is reading. Statements in the form in which they are read have nothing that could be taken for
something else, and every statement of the documented grammar has this form if no arguments are misread.

- `Clause.reads`: statements in this form have a derivation, part by part.
- `documented_accepted`: statements of the documented grammar are read to their end.
- `misread_refused`: misread arguments are refused, so there are no more of these statements.
- `arguments_misread`: one of the statements that are refused.
-/
import Stone.Proofs.Reading
import Stone.Proofs.ViablePrefix

namespace Stone

open TokenStream Parsing Grammar Stone.Language

/-! ## Reading statements -/

/-- no expression begins here -/
def Closed (t : Token) : Prop := opens .functions t = false

section Closing

variable {t : Token} {name : Token → Prop} {admits : List Token → Prop} {n : Nat} {ts us tail : List Token}

theorem closed_of_reserved {s : String} (hs : s ∈ reservedTexts .functions) (h : t.isLiteral s = true) : Closed t := by
  obtain ⟨line, x⟩ := t
  cases x with
  | identifier u =>
    obtain rfl : u = s := by simpa [Token.isLiteral] using h
    simpa [Closed, opens] using hs
  | lineEnd => rfl
  | _ => cases h

theorem closed_of_separator (h : t.isSeparator = true) : Closed t := by
  obtain ⟨s, hs, ht⟩ := List.any_eq_true.1 h
  simp only [List.mem_cons, List.not_mem_nil, or_false] at hs
  rcases hs with rfl | rfl
  · exact closed_of_reserved (by decide) ht
  · exact closed_of_reserved (by decide) ht

/-- a statement in a block ends before a separator or before the end of the block -/
theorem Clause.following_closed (h : Clause name admits n .following us) (ht : (front tail).isLiteral "\x7d" = true) :
    Closed (front (us ++ tail)) := by
  cases h with
  | noFollowing => exact closed_of_reserved (by decide) ht
  | following hs _ _ => exact closed_of_separator hs

/-- a keyword, a condition and a block, before other elements -/
theorem Clause.guarded {s : String} {es : List Element} {calm : Token → Prop} {vs : List Token}
    (hname : ∀ t, name t → isName t = true) (ht : t.isLiteral s = true) (h : Phrase name n .expr ts)
    (hb : Clause name admits n .block us) (hr : Read n (.rule Place.block) (fun _ => True) us)
    (hs : Read n (.elements es) calm vs) :
    Read n (.elements (skip s :: .rule Place.expression :: .rule Place.block :: es)) calm
      (t :: (ts ++ (us ++ vs))) := by
  refine .skip ht (.before (.call (h.reads hname)) (.before hr.call hs fun _ _ => trivial) fun tail _ => ?_)
  cases hb with
  | block ho _ _ _ =>
    obtain ⟨line, rfl⟩ := eq_identifier (by decide) ho
    exact ⟨rfl, rfl⟩

/-- an expression ends before arguments that are no part of it -/
theorem Phrase.args_ended {firsts : List Token} (hname : ∀ t, name t → isName t = true)
    (h : Phrase name n (.args firsts) us) (ha : isApart firsts = true) : Ended (front (us ++ tail)) := by
  cases h with
  | @args _ _ as bs has _ =>
    obtain ⟨hopen, hminus⟩ : (front as).isLiteral "(" = false ∧ (front as).isLiteral "-" = false := by
      simpa [isApart, continues] using ha
    obtain ⟨t, as', rfl⟩ := has.expr_cons
    rcases has.starts_expr hname [] with hs | hs
    · exact ⟨hopen, ended_of_startsPrimary hs hopen⟩
    · exact absurd (hs.symm.trans hminus) Bool.noConfusion

theorem Clause.simple_front (hname : ∀ t, name t → isName t = true) (h : Clause name admits n .simple ts)
    (tail : List Token) {s : String} (hs : s ∈ ["if", "while", "def"]) : (front (ts ++ tail)).isLiteral s = false := by
  have hexpr : ∀ {m vs tail}, Phrase name m .expr vs → (front (vs ++ tail)).isLiteral s = false := by
    intro m vs tail hv
    rcases hv.starts_expr hname tail with h | h
    · exact not_literal_of_startsPrimary (List.mem_cons_of_mem _ hs) h
    · obtain ⟨line, h⟩ := eq_identifier (by decide) h
      rw [h]
      simp only [List.mem_cons, List.not_mem_nil, or_false] at hs
      rcases hs with rfl | rfl | rfl <;> rfl
  cases h with
  | expr h => exact hexpr h
  | command h _ _ =>
    rw [List.append_assoc]
    exact hexpr h

theorem Clause.statement_front (hname : ∀ t, name t → isName t = true) (h : Clause name admits n .statement ts)
    (tail : List Token) : (front (ts ++ tail)).isLiteral "def" = false := by
  have hkeyword : ∀ {t : Token} {s : String}, s ∈ ["if", "while"] → t.isLiteral s = true →
      t.isLiteral "def" = false := by
    intro t s hs ht
    simp only [List.mem_cons, List.not_mem_nil, or_false] at hs
    rcases hs with rfl | rfl <;> obtain ⟨line, rfl⟩ := eq_identifier (by decide) ht <;> rfl
  cases h with
  | conditional hi _ _ => exact hkeyword (by decide) hi
  | alternative hi _ _ _ _ => exact hkeyword (by decide) hi
  | loop hw _ _ => exact hkeyword (by decide) hw
  | simple h => exact h.simple_front hname tail (by decide)

theorem chosen_conditional (h : t.isLiteral "if" = true) :
    Level.functions.grammar.chosen t [Place.conditional, Place.loop, Place.simple] = some (some Place.conditional) := by
  rw [chosen_statement, h]
  rfl

theorem Read.statement {id : RuleId} {calm : Token → Prop} (h : Read n (.rule id) calm ts)
    (hc : ∀ tail, calm (front tail) → Level.functions.grammar.chosen (front (ts ++ tail))
      [Place.conditional, Place.loop, Place.simple] = some (some id)) : Read (n + 1) (.rule Place.statement) calm ts :=
  .rule (.last (.choice h hc))

theorem Clause.simple_statement {calm : Token → Prop} (hname : ∀ t, name t → isName t = true)
    (h : Clause name admits n .simple ts) (hr : Read n (.rule Place.simple) calm ts) :
    Read (n + 1) (.rule Place.statement) calm ts := by
  refine hr.statement fun tail ht => ?_
  have hopens := hr.begun ht ((begins_eq .functions _ _).trans (begins_simple .functions _ 24))
  rw [chosen_statement, hopens, h.simple_front hname tail (by decide), h.simple_front hname tail (by decide)]
  rfl

theorem Clause.chosen_stated {calm : Token → Prop} (hname : ∀ t, name t → isName t = true)
    (h : Clause name admits n .statement ts) (hr : Read n (.rule Place.statement) calm ts) (ht : calm (front tail)) :
    Level.functions.grammar.chosen (front (ts ++ tail)) (programRules .functions) = some (some Place.statement) := by
  rw [chosen_program, hr.begun ht (begins_statement_iff .functions _), h.statement_front hname tail]
  rfl

theorem Read.program {id : RuleId} (h : Read n (.rule id) Closed ts)
    (hc : ∀ tail, Closed (front tail) →
      Level.functions.grammar.chosen (front (ts ++ tail)) (programRules .functions) = some (some id))
    (ht : t.isSeparator = true) : Read (n + 1) (.rule Place.program) (fun _ => True) (ts ++ [t]) :=
  .rule (.before (.choice h hc) (.literal ht .nil) fun _ _ => closed_of_separator ht)

theorem read_param {p : Token} (hname : ∀ t, name t → isName t = true) (hp : name p) :
    Read (n + 1) (.rule Place.param) (fun _ => True) [p] := .rule (.token (accepts_of_isName (hname _ hp)) .nil)

end Closing

/-- how the parts of statements are read -/
abbrev ClauseReads (n : Nat) : ClauseKind → List Token → Prop
  | .simple => Read n (.rule Place.simple) Closed
  | .statement => Read n (.rule Place.statement) Closed
  | .perhaps => Read n (.element (.optional Place.statement)) Closed
  | .following => Read n (.many Place.following) (·.isLiteral "\x7d" = true)
  | .block => Read n (.rule Place.block) fun _ => True
  | .moreParams => Read n (.many Place.moreParams) Quiet
  | .paramList => Read n (.rule Place.parameters) fun _ => True
  | .definition => Read n (.rule Place.definition) fun _ => True
  | .program => Read n (.rule Place.program) fun _ => True

/-- **Statements of the documented grammar are read**, if no argument can be read as a part of what comes before it. -/
theorem Clause.reads {name : Token → Prop} {n : Nat} {kind : ClauseKind} {ts : List Token}
    (hname : ∀ t, name t → isName t = true) (h : Clause name (isApart · = true) n kind ts) : ClauseReads n kind ts := by
  induction h with
  | @expr n ts h =>
    have hnone : Read n (.element (.optional Place.arguments)) Closed [] := .skipped fun _ ht => (closed_skips ht).2
    have h := Read.before (.call (h.reads hname)) hnone.last fun _ ht => ended_of_quiet (quiet_of_closed ht)
    rw [List.append_nil] at h
    exact .rule h
  | @command n firsts ts us h hu ha =>
    have hargs : Read n (.rule Place.arguments) Closed us := fun tail ht => hu.reads hname tail (quiet_of_closed ht)
    exact .rule (.before (.call (h.reads hname)) (.last (.optional hargs)) fun _ _ => hu.args_ended hname ha)
  | @conditional n i ts us hi h hb ih =>
    have hnone : Read n (.element (.optional Place.otherwise)) Closed [] :=
      .skipped fun _ ht => (quiet_skips (quiet_of_closed ht)).2.2.2
    have h : Read (n + 1) (.rule Place.conditional) Closed _ := .rule (hb.guarded hname hi h ih hnone.last)
    rw [List.append_nil] at h
    exact h.statement fun _ _ => chosen_conditional hi
  | @alternative n i e ts us vs hi h hb he _ ih1 ih2 =>
    have hother : Read (n + 1) (.rule Place.otherwise) Closed (e :: vs) := .rule (.skip he (.last (.call ih2.always)))
    have h : Read (n + 2) (.rule Place.conditional) Closed _ := .rule (hb.guarded hname hi h ih1 hother.optional.last)
    exact h.statement fun _ _ => chosen_conditional hi
  | @loop n w ts us hw h hb ih =>
    have h : Read (n + 1) (.rule Place.loop) Closed _ := .rule (hb.guarded hname hw h ih .nil)
    rw [List.append_nil] at h
    refine h.statement fun tail _ => ?_
    obtain ⟨line, rfl⟩ := eq_identifier (by decide) hw
    rw [chosen_statement]
    rfl
  | simple h ih => exact h.simple_statement hname ih
  | nothing => exact .skipped fun _ ht => (closed_skips ht).1
  | something _ ih => exact .optional ih
  | noFollowing =>
    refine .manyNil fun t ht => ?_
    obtain ⟨line, rfl⟩ := eq_identifier (by decide) ht
    exact begins_following .functions _
  | following ht _ hus ih1 ih2 =>
    have h : Read _ (.rule Place.following) Closed _ := .rule (.literal ht ih1.last)
    exact h.manyCons ih2 fun _ => hus.following_closed
  | block ho _ hus hc ih1 ih2 =>
    refine .rule (.skip ho (.before ih1 (.before ih2.repetition (.skip hc .nil) fun _ _ => hc) fun tail _ => ?_))
    rw [List.append_assoc]
    exact hus.following_closed hc
  | noMoreParams => exact .manyNil fun _ ht => (quiet_skips ht).2.1
  | @moreParams n c p us hc hp _ ih =>
    have h : Read (n + 2) (.rule Place.moreParams) (fun _ => True) [c, p] :=
      .rule (.skip hc (.last (.call (read_param hname hp))))
    exact h.manyCons ih fun _ _ => trivial
  | @noParams n o c ho hc =>
    have hnone : Read (n + 1) (.rule Place.noParams) (·.isLiteral ")" = true) [] := .rule .nil
    refine hnone.bracketed rfl ho hc hc fun tail ht => ?_
    obtain ⟨line, ht⟩ := eq_identifier (by decide) ht
    rw [chosen_parameters, List.nil_append, ht]
    rfl
  | @params n o c p us ho hp _ hc ih =>
    have h : Read (n + 2) (.rule Place.params) Quiet ([p] ++ us) :=
      .rule (.before (.call (read_param hname hp)) ih.repetition.last fun _ _ => trivial)
    refine h.bracketed rfl ho hc (quiet_of_close hc) fun tail _ => ?_
    have hp := accepts_of_isName (hname _ hp)
    rw [chosen_parameters]
    simp [hp]
  | definition hd hf _ _ ih1 ih2 =>
    exact .rule (.skip hd (.token (accepts_of_isName (hname _ hf)) (.before ih1.call ih2.call.last fun _ _ => trivial)))
  | @empty n t ht =>
    have hnone : Read (n + 1) (.rule Place.nothing) Closed [] := .rule .nil
    refine hnone.program (fun tail hc => ?_) ht
    rw [chosen_program, List.nil_append, hc, not_def_of_closed hc]
    rfl
  | defined h ht ih =>
    refine Read.program ih.always (fun tail _ => ?_) ht
    cases h with
    | definition hd _ _ _ =>
      rw [chosen_program, List.cons_append, front_cons, hd]
      rfl
  | stated h ht ih => exact ih.program (fun _ => h.chosen_stated hname ih) ht

/-! ## The documented grammar -/

section Words

variable {t : Token}

/-- texts with a meaning are no words, or keywords -/
theorem not_ordinary_of_meant : ∀ s ∈ meantTexts, isOrdinary s = false := by
  decide

theorem isName_of_isWord (h : t.isWord = true) : isName t = true := by
  obtain ⟨line, x⟩ := t
  cases x with
  | identifier s =>
    have hs : s ∉ meantTexts := fun hs => absurd (h.symm.trans (not_ordinary_of_meant s hs)) Bool.noConfusion
    simpa [isName] using hs
  | _ => cases h

theorem isName_of_orComma (h : orComma (·.isWord = true) t) : isName t = true := by
  rcases h with h | h
  · exact isName_of_isWord h
  · obtain ⟨line, rfl⟩ := eq_identifier (by decide) h
    rfl

theorem continues_of_isName (h : isName t = true) : continues t = false := by
  rw [continues, not_literal_of_isName (by decide) h, not_literal_of_isName (by decide) h]
  rfl

end Words

section Commands

variable {name : Token → Prop} {n : Nat} {ts us : List Token}

theorem Phrase.single (h : Phrase name (n + 2) .primary ts) : Phrase name (n + 4) .expr ts := by
  rw [← List.append_nil ts]
  exact .expr (.factor h) .noOperation

/-- an operand in parentheses and another expression, as arguments -/
theorem Phrase.grouped_args {o c d : Token} (ho : o.isLiteral "(" = true) (hc : c.isLiteral ")" = true)
    (hd : d.isLiteral "," = true) (h : Phrase name (n + 4) .expr ts) (hu : Phrase name (n + 8) .expr us) :
    Phrase name (n + 10) (.args [o, front us]) (o :: (ts ++ [c]) ++ (d :: (us ++ []))) :=
  .args (Phrase.single (.grouped ho (h.wider (by omega)) hc .noCalls)) (.moreArgs hd hu .noMoreArgs)

end Commands

/-- **The documented grammar is accepted.** A statement of the documented grammar in which no arguments are misread, and
which nests less deep than parsing may, is read to its end, whatever comes after it. -/
theorem documented_accepted {n : Nat} {ts : List Token}
    (h : Clause (·.isWord = true) (isMisread · = false) n .program ts) (hn : n < maxNesting) (later : List Token) :
    ∃ node, Language.functions.parseStatement.run (ofTokens (ts ++ later)) = .ok node (ofTokens later) := by
  have hclear := h.clarified fun t ht => continues_of_isName (isName_of_isWord ht)
  obtain ⟨ns, hns⟩ := hclear.reads (fun _ => isName_of_orComma) later trivial
  obtain ⟨node, rfl⟩ := hns.rule_one
  refine ⟨node, ?_⟩
  rw [← parseStatementWithin_maxNesting]
  refine (run_parseStatementWithin .functions maxNesting _).trans ?_
  exact (hns.mono hn).run_rule (steady .functions) (Nat.lt_succ_self _)

/-- a word with two operands in parentheses as its arguments -/
def groupedArguments : List Token := ["f", "(", "x", ")", ",", "(", "y", ")", ";"].map (Token.identifier 1)

/-- the second argument is read as a call on the comma -/
theorem documented_accepted_grouped :
    Clause (·.isWord = true) (isMisread · = false) 13 .program groupedArguments ∧ 13 < maxNesting ∧
      ∃ node, Language.functions.parseStatement.run (ofTokens (groupedArguments ++ [Token.lineEnd 1])) =
        .ok node (ofTokens [Token.lineEnd 1]) := by
  have hword : ∀ {s : String} {n : Nat}, isOrdinary s = true →
      Phrase (·.isWord = true) (n + 4) .expr [.identifier 1 s] := fun h => Phrase.single (.name h .noCalls)
  have hgroup : Phrase (·.isWord = true) 8 .expr [.identifier 1 "(", .identifier 1 "y", .identifier 1 ")"] :=
    Phrase.single (.grouped rfl (hword rfl) rfl .noCalls)
  have hargs : Phrase (·.isWord = true) 10 (.args [.identifier 1 "(", .identifier 1 "("])
      (["(", "x", ")", ",", "(", "y", ")"].map (Token.identifier 1)) :=
    Phrase.grouped_args rfl rfl rfl (hword rfl) hgroup
  have hcommand : Clause (·.isWord = true) (isMisread · = false) 11 .simple _ :=
    .command (hword (s := "f") rfl) hargs rfl
  have h : Clause (·.isWord = true) (isMisread · = false) 13 .program groupedArguments :=
    .stated (t := .identifier 1 ";") (.simple hcommand) rfl
  exact ⟨h, by decide, documented_accepted h (by decide) _⟩

/-! ## Misread arguments -/

/-- numbers, strings and words go on with nothing -/
theorem quiet_of_operand {t : Token} (h : TokenClass.number.accepts t = true ∨ TokenClass.string.accepts t = true ∨
    t.isWord = true) : Quiet t ∧ t.isSeparator = false := by
  obtain ⟨line, x⟩ := t
  cases x with
  | number d => exact ⟨⟨rfl, rfl, rfl, rfl⟩, rfl⟩
  | string u => exact ⟨⟨rfl, rfl, rfl, rfl⟩, rfl⟩
  | identifier u =>
    have hword : isOrdinary u = true := by simpa [TokenClass.accepts, Token.isWord] using h
    have hliteral : ∀ s, isOrdinary s = false → Token.isLiteral ⟨line, .identifier u⟩ s = false := by
      intro s hs
      refine Bool.eq_false_iff.2 fun he => ?_
      obtain rfl : u = s := by simpa [Token.isLiteral] using he
      exact absurd (hs.symm.trans hword) Bool.noConfusion
    have hoperator := operator_of_isName (isName_of_isWord (t := ⟨line, .identifier u⟩) hword)
    refine ⟨⟨hoperator, hliteral "(" rfl, hliteral "," rfl, hliteral "else" rfl⟩, ?_⟩
    simp [Token.isSeparator, hliteral ";" rfl, hliteral Token.lineEndText rfl]
  | lineEnd => simp [TokenClass.accepts, Token.isWord] at h
  | inputEnd => simp [TokenClass.accepts, Token.isWord] at h

/-- an expression that goes on with nothing begins with a number, a word or a string -/
theorem Phrase.expr_bare {n : Nat} {ts : List Token} (h : Phrase (·.isWord = true) n .expr ts)
    (hc : continues (front ts) = false) : ∃ t us, ts = t :: us ∧ Quiet t ∧ t.isSeparator = false := by
  cases h with
  | expr hf _ =>
    cases hf with
    | negative hm _ => simp [continues, hm] at hc
    | factor hp =>
      cases hp with
      | grouped ho _ _ _ => simp [continues, ho] at hc
      | number ha _ => exact ⟨_, _, rfl, quiet_of_operand (.inl ha)⟩
      | name ha _ => exact ⟨_, _, rfl, quiet_of_operand (.inr (.inr ha))⟩
      | string ha _ => exact ⟨_, _, rfl, quiet_of_operand (.inr (.inl ha))⟩

/-- **Misread arguments are refused**, at the first token of the second one: the comma before it is read as a name. -/
theorem misread_refused {n : Nat} {a b : Token} {ts us more : List Token} (h : Phrase (·.isWord = true) n .expr ts)
    (hu : Phrase (·.isWord = true) n (.args (a :: b :: more)) us) (ha : continues a = true) (hb : continues b = false)
    (hn : n + 3 < maxNesting) (later : List Token) :
    ∃ left, Language.functions.parseStatement.run (ofTokens (ts ++ us ++ later)) =
      .error (.raised (.unexpected b (some ";"))) left := by
  have hname : ∀ t, orComma (·.isWord = true) t → isName t = true := fun _ => isName_of_orComma
  have hstart : ∀ t, orComma (·.isWord = true) t → continues t = false := fun t ht => continues_of_isName (hname t ht)
  cases hu with
  | @args k _ as bs has hbs =>
    cases hbs with
    | @moreArgs j c _ cs ds hc hcs hds =>
      obtain ⟨t, cs, rfl, hquiet, hsep⟩ := hcs.expr_bare hb
      obtain ⟨i, rfl⟩ := hcs.expr_room
      have hmerged := (h.withComma.wider (Nat.le_succ _)).merge hstart has.withComma ha
      -- what is read as arguments is the comma alone
      have hcomma : Phrase (orComma (·.isWord = true)) (i + 4) .expr [c] := Phrase.single (.name (.inr hc) .noCalls)
      have hargs := Phrase.args (hcomma.wider (Nat.le_add_right _ 2)) .noMoreArgs
      have hapart : isApart [front [c]] = true := by rw [front_cons, isApart, continues_comma hc]; rfl
      have hclause : Clause (orComma (·.isWord = true)) (isApart · = true) (i + 8) .simple _ :=
        .command hmerged hargs hapart
      have hsimple : Read (i + 8) (.rule Place.simple) Quiet _ :=
        .rule (.before (.call (hmerged.reads hname)) (.last (.optional (hargs.reads hname)))
          fun _ _ => hargs.args_ended hname hapart)
      have hstated := hclause.simple_statement hname hsimple
      have hrest : Quiet (front (t :: cs ++ ds ++ later)) := hquiet
      obtain ⟨ns, hns⟩ := hstated _ hrest
      have hrefuses : Refuses Level.functions.grammar (i + 10) (.rule Place.program)
          (ts ++ as ++ ([c] ++ []) ++ (t :: cs ++ ds ++ later)) (t :: cs ++ ds ++ later) (some ";") := by
        refine .rule ?_
        rw [elements_eq]
        exact .later (.choice (hclause.simple.chosen_stated hname hstated hrest) hns) (.here (.literal hsep))
      have htokens : ts ++ as ++ ([c] ++ []) ++ (t :: cs ++ ds ++ later) =
          ts ++ (as ++ c :: (t :: cs ++ ds)) ++ later := by simp
      rw [htokens] at hrefuses
      obtain ⟨left, hrun, -⟩ := run_of_refuses (hrefuses.mono hn)
      exact ⟨left, hrun⟩

/-- **Not all statements of the documented grammar are accepted**: the arguments in `x (1), 1` are misread. -/
theorem arguments_misread :
    ¬ ∀ n ts, Clause (·.isWord = true) (fun _ => True) n .program ts → n < maxNesting → ∀ later, ∃ node,
      Language.functions.parseStatement.run (ofTokens (ts ++ later)) = .ok node (ofTokens later) := by
  intro h
  have hx : Phrase (·.isWord = true) 10 .expr [.identifier 1 "x"] := Phrase.single (.name rfl .noCalls)
  have hone : ∀ {n : Nat}, Phrase (·.isWord = true) (n + 4) .expr [.number 1 .one] :=
    Phrase.single (.number rfl .noCalls)
  have hargs : Phrase (·.isWord = true) 10 (.args [.identifier 1 "(", .number 1 .one])
      [.identifier 1 "(", .number 1 .one, .identifier 1 ")", .identifier 1 ",", .number 1 .one] :=
    Phrase.grouped_args rfl rfl rfl hone hone
  have hclause : Clause (·.isWord = true) (fun _ => True) 13 .program _ :=
    .stated (t := .lineEnd 1) (.simple (.command hx hargs trivial)) rfl
  obtain ⟨node, hnode⟩ := h 13 _ hclause (by decide) []
  obtain ⟨left, hleft⟩ := misread_refused hx hargs rfl rfl (by decide) [.lineEnd 1]
  rw [List.append_nil, hleft] at hnode
  cases hnode

end Stone
