/-
Source texts one after the other. Statements run as they are read, and reading a statement does not look past its end;
so a text of whole lines with another text after it runs as if the two were run one by one, up to the line numbers of
the second. If the first fails before its end then what comes after it is never seen.

- `Session.runStream_succ`: running a stream, round by round.
- `runStream_relined`: the same statements on other lines.
- `runStream_ahead`: running a text, and running it with more lines after it.
- `Session.evalSource_composes`: running two texts as one.
-/
import Stone.Proofs.Completable
import Stone.Proofs.Relined

namespace Stone

open TokenStream Parsing Grammar

/-! ## Rounds -/

/-- what became of one statement of a stream -/
inductive Round where
  /-- it was not read, or did not run to its end -/
  | failed (stop : Stop Fault) (session : Session)
  /-- there was none -/
  | finished
  /-- it ran; an empty one gives no value -/
  | went (value : Option Value) (session : Session) (stream : TokenStream)

/-- the session after a statement -/
def Round.session : Round → Option Session
  | failed _ s => some s
  | finished => none
  | went _ s _ => some s

namespace Session

/-- reads and runs one statement -/
def round (l : Language) (s : Session) (stream : TokenStream) : Round :=
  match Language.atEnd.run stream with
  | .error e _ => .failed (e.map .parse) s
  | .ok true _ => .finished
  | .ok false stream =>
    match l.parseStatement.run stream with
    | .error e _ => .failed (e.map .parse) s
    | .ok n stream =>
      if n.is .empty then .went none s stream
      else
        match s.evalNode n with
        | (.error e, s') => .failed e s'
        | (.ok v, s') => .went (some v) s' stream

/-- **Running a stream** is going through its rounds. -/
theorem runStream_succ (l : Language) (s : Session) (done : List Value) (budget : Nat) (stream : TokenStream) :
    s.runStream l done (budget + 1) stream =
      match s.round l stream with
      | .failed e s' => (.error e, s')
      | .finished => (.ok done.reverse, s)
      | .went v s' stream' => s'.runStream l (v.toList ++ done) budget stream' := by
  rw [runStream, round]
  cases Language.atEnd.run stream with
  | error e stream => rfl
  | ok b stream =>
    cases b with
    | true => rfl
    | false =>
      simp only
      cases l.parseStatement.run stream with
      | error e stream => rfl
      | ok n stream =>
        simp only
        split
        · rfl
        · rcases s.evalNode n with ⟨e | v, s'⟩ <;> rfl

section Went

variable {l : Level} {s s' : Session} {stream stream' : TokenStream} {v : Option Value}

/-- a round takes a token at least -/
theorem round_takes (h : s.round (.ofLevel l) stream = .went v s' stream') :
    stream'.tokens.length < stream.tokens.length := by
  rw [round] at h
  split at h
  · cases h
  · cases h
  · rename_i stream₁ hend
    split at h
    · cases h
    · rename_i n stream₂ hparse
      have htakes := program_takes (parseStatement_derives hparse).1
      rw [(atEnd_run hend).2.1] at htakes
      split at h
      · cases h
        exact htakes
      · split at h
        · cases h
        · cases h
          exact htakes

/-- a round leaves the level of the session -/
theorem round_level (l : Language) (s : Session) (stream : TokenStream) :
    ((s.round l stream).session.getD s).level = s.level := by
  rw [round]
  split
  · rfl
  · rfl
  · split
    · rfl
    · rename_i n _ _
      have hn := evalNode_level s n
      split
      · rfl
      · split
        · rename_i hr
          rw [hr] at hn
          exact hn
        · rename_i hr
          rw [hr] at hn
          exact hn

end Went

section Run

variable {l : Level} {s : Session} {stream : TokenStream} {budget : Nat}

/-- a budget that is large enough does not matter -/
theorem runStream_budget (done : List Value) {budget' : Nat} (hb : stream.tokens.length < budget)
    (hb' : stream.tokens.length < budget') :
    s.runStream (.ofLevel l) done budget stream = s.runStream (.ofLevel l) done budget' stream := by
  induction budget generalizing s done stream budget' with
  | zero => cases hb
  | succ budget ih =>
    obtain ⟨budget', rfl⟩ : ∃ k, budget' = k + 1 := ⟨budget' - 1, by omega⟩
    rw [runStream_succ, runStream_succ]
    cases hr : s.round (.ofLevel l) stream with
    | failed e s₁ => rfl
    | finished => rfl
    | went v s₁ stream₁ =>
      have hlt := round_takes hr
      exact ih (v.toList ++ done) (by omega) (by omega)

/-- the values so far come before the others -/
theorem runStream_done (done : List Value) :
    s.runStream (.ofLevel l) done budget stream =
      ((s.runStream (.ofLevel l) [] budget stream).1.map (done.reverse ++ ·),
        (s.runStream (.ofLevel l) [] budget stream).2) := by
  induction budget generalizing s done stream with
  | zero => rfl
  | succ budget ih =>
    rw [runStream_succ, runStream_succ]
    cases hr : s.round (.ofLevel l) stream with
    | failed e s₁ => rfl
    | finished => exact congrArg (fun vs => (Except.ok vs, s)) (List.append_nil _).symm
    | went v s₁ stream₁ =>
      simp only
      rw [ih (v.toList ++ done), ih (v.toList ++ [])]
      cases (s₁.runStream (.ofLevel l) [] budget stream₁).1 with
      | error e => rfl
      | ok vs => simp [Except.map]

theorem runStream_level (l : Language) (s : Session) (done : List Value) (budget : Nat) (stream : TokenStream) :
    (s.runStream l done budget stream).2.level = s.level := by
  induction budget generalizing s done stream with
  | zero => rfl
  | succ budget ih =>
    have hr := round_level l s stream
    rw [runStream_succ]
    cases hround : s.round l stream with
    | failed e s₁ => rwa [hround] at hr
    | finished => rfl
    | went v s₁ stream₁ =>
      rw [hround] at hr
      exact (ih s₁ _ stream₁).trans hr

end Run

end Session

/-! ## Other lines -/

/-- the fault on no line -/
def Fault.placeless : Fault → Fault
  | .parse e => .parse (e.mapLine fun _ => 0)
  | .eval e => .eval e.withoutLine

/-- outcomes of running a stream that differ in line numbers only -/
inductive AlikeOutcome :
    Except (Stop Fault) (List Value) × Session → Except (Stop Fault) (List Value) × Session → Prop
  | ok {vs ws : List Value} {s t : Session} : List.Forall₂ (Value.Alike false) vs ws → s.Alike false t →
      AlikeOutcome (.ok vs, s) (.ok ws, t)
  | error {e e' : Stop Fault} {s t : Session} : e.map Fault.placeless = e'.map Fault.placeless → s.Alike false t →
      AlikeOutcome (.error e, s) (.error e', t)

/-- rounds that differ in line numbers only -/
inductive AlikeRound (f : Nat → Nat) : Round → Round → Prop
  | failed {e e' : Stop Fault} {s t : Session} : e.map Fault.placeless = e'.map Fault.placeless → s.Alike false t →
      AlikeRound f (.failed e s) (.failed e' t)
  | finished : AlikeRound f .finished .finished
  | went {v w : Option Value} {s t : Session} (stream : TokenStream) : Option.Rel (Value.Alike false) v w →
      s.Alike false t → AlikeRound f (.went v s stream) (.went w t (stream.mapLines f))

section Lines

variable {f : Nat → Nat} {s t : Session}

theorem placeless_parse (f : Nat → Nat) (e : Stop ParseError) :
    (e.map Fault.parse).map Fault.placeless =
      ((e.map (ParseError.mapLine f)).map Fault.parse).map Fault.placeless := by
  cases e with
  | endless => rfl
  | raised e =>
    cases e with
    | unexpected t expected => rfl
    | tooDeep line => rfl
    | scan e => cases e <;> rfl

/-- what is equal without places of evaluation is equal without all places -/
theorem placeless_of_withoutLine {e e' : Stop Fault} (h : e.map Fault.withoutLine = e'.map Fault.withoutLine) :
    e.map Fault.placeless = e'.map Fault.placeless := by
  have hboth : ∀ e : Stop Fault, (e.map Fault.withoutLine).map Fault.placeless = e.map Fault.placeless := by
    intro e
    cases e with
    | endless => rfl
    | raised fault =>
      cases fault with
      | parse e => rfl
      | eval e => cases e <;> rfl
  rw [← hboth e, ← hboth e', h]

/-- one statement on other lines -/
theorem round_relined (hf : f 0 = 0) (l : Language) (hs : s.Alike false t) (stream : TokenStream) :
    AlikeRound f (s.round l stream) (t.round l (stream.mapLines f)) := by
  rw [Session.round, Session.round, relined_atEnd hf stream]
  cases Language.atEnd.run stream with
  | error e stream => exact .failed (placeless_parse f e) hs
  | ok b stream =>
    cases b with
    | true => exact .finished
    | false =>
      simp only [relinedEnd, id_eq]
      rw [relined_parseStatement hf l stream]
      cases l.parseStatement.run stream with
      | error e stream => exact .failed (placeless_parse f e) hs
      | ok n stream =>
        simp only [relinedEnd, Node.is_mapLines]
        split
        · exact .went stream .none hs
        · have hn : n.Alike false (n.mapLines f) := .of_withoutLines (Node.withoutLines_mapLines f n).symm
          have hout := evalNode_outcomes hs hn
          generalize s.evalNode n = r at hout
          generalize t.evalNode (n.mapLines f) = r' at hout
          cases hout with
          | tooDeep hm => cases hm
          | ok hv hs' => exact .went stream (.some hv) hs'
          | error he hs' => exact .failed (placeless_of_withoutLine he) hs'

/-- **The same statements on other lines** have the same outcome up to line numbers. -/
theorem runStream_relined (hf : f 0 = 0) (l : Language) (hs : s.Alike false t) {done done' : List Value}
    (hd : List.Forall₂ (Value.Alike false) done done') (budget : Nat) (stream : TokenStream) :
    AlikeOutcome (s.runStream l done budget stream) (t.runStream l done' budget (stream.mapLines f)) := by
  induction budget generalizing s t done done' stream with
  | zero => exact .error rfl hs
  | succ budget ih =>
    have hround := round_relined hf l hs stream
    rw [Session.runStream_succ, Session.runStream_succ]
    generalize s.round l stream = r at hround
    generalize t.round l (stream.mapLines f) = r' at hround
    cases hround with
    | failed he hs' => exact .error he hs'
    | finished => exact .ok (List.rel_reverse hd) hs
    | went stream' hv hs' =>
      refine ih hs' ?_ stream'
      cases hv with
      | none => exact hd
      | some hv => exact .cons hv hd

end Lines

/-! ## More lines after a text -/

/-- is this no error of a text that ends inside a statement -/
def Stop.NotUnexpectedEnd (e : Stop Fault) : Prop := ∀ fault, e = .raised fault → fault.isUnexpectedEnd = false

section More

variable {l : Level} {ts : List Token} {s₁ s₂ : TokenStream} {first later : Lines}

/-- a statement that is not finished, and no line after it -/
theorem unfinished_ends {line : Nat} {cut : List Token} {n : Node} (hs : Ahead s₁ ts [])
    (hd : Derives l.grammar maxNesting (.rule Place.program) (ts ++ (cut ++ [Token.lineEnd line])) [n] []) :
    ∃ expected s', (Language.ofLevel l).parseStatement.run s₁ =
      .error (.raised (.unexpected Token.inputEnd expected)) s' := by
  have htokens : s₁.tokens = ts := hs.tokens_eq.trans (List.append_nil ts)
  rcases program_truncated hd (Nat.lt_succ_of_le hs.length_le) with ⟨left, hl, -⟩ | ⟨-, expected, s₀, hr⟩
  · simp at hl
  · rw [← htokens] at hr
    obtain ⟨s', hr'⟩ := parse_error hs.clean hr
    exact ⟨expected, s', by rw [Language.parseStatement, Language.program_eq]; exact hr'⟩

/-- **One statement, and one statement with more lines after it.** It runs in both cases and leaves the same tokens; or
it fails, and if that is not because the lines end then it fails with more lines as well. -/
theorem round_ahead (session : Session) (hl : Lined ts) (hne : ts ≠ []) (h₁ : Ahead s₁ ts first)
    (h₂ : Ahead s₂ ts (first ++ later)) (hfirst : first = [] ∨ ∃ e more, first = .error e :: more) :
    (∃ e session', session.round (.ofLevel l) s₁ = .failed e session' ∧
      (e.NotUnexpectedEnd → session.round (.ofLevel l) s₂ = .failed e session')) ∨
    ∃ v session' s₁' s₂' rest, session.round (.ofLevel l) s₁ = .went v session' s₁' ∧
      session.round (.ofLevel l) s₂ = .went v session' s₂' ∧ Lined rest ∧ rest.length < ts.length ∧
      Ahead s₁' rest first ∧ Ahead s₂' rest (first ++ later) := by
  obtain ⟨t, us, rfl⟩ := List.exists_cons_of_ne_nil hne
  obtain ⟨u₁, hend₁, hu₁⟩ := atEnd_ahead h₁ (hl.unended t List.mem_cons_self)
  obtain ⟨u₂, hend₂, hu₂⟩ := atEnd_ahead h₂ (hl.unended t List.mem_cons_self)
  rw [Session.round, Session.round, hend₁, hend₂]
  simp only
  cases Language.statement_fate l 0 hl hne with
  | complete n rest hp hd =>
    obtain ⟨w₁, hr₁, hw₁⟩ := hp () u₁ _ hu₁
    obtain ⟨w₂, hr₂, hw₂⟩ := hp () u₂ _ hu₂
    have hd0 : Derives l.grammar maxNesting (.rule Place.program) (t :: us) [n] rest := by simpa using hd []
    have hrest : Lined rest ∧ rest.length < (t :: us).length ∧ Ahead w₁ rest first ∧ Ahead w₂ rest (first ++ later) :=
      ⟨hl.suffix hd0.suffix, program_takes hd0, hw₁, hw₂⟩
    rw [hr₁, hr₂]
    simp only
    split
    · exact .inr ⟨none, session, w₁, w₂, rest, rfl, rfl, hrest⟩
    · rcases session.evalNode n with ⟨e | v, session'⟩
      · exact .inl ⟨e, session', rfl, fun _ => rfl⟩
      · exact .inr ⟨some v, session', w₁, w₂, rest, rfl, rfl, hrest⟩
  | wrong e he hf =>
    obtain ⟨w₁, hr₁⟩ := hf () u₁ _ hu₁
    obtain ⟨w₂, hr₂⟩ := hf () u₂ _ hu₂
    rw [hr₁, hr₂]
    exact .inl ⟨_, session, rfl, fun _ => rfl⟩
  | unfinished cut n hcut hlooks hd =>
    rcases hfirst with rfl | ⟨e, more, rfl⟩
    · obtain ⟨expected, w₁, hr₁⟩ := unfinished_ends hu₁ (hd (Token.lineEnd 0) rfl)
      rw [hr₁]
      exact .inl ⟨_, session, rfl, fun hno => nomatch hno _ rfl⟩
    · obtain ⟨w₁, hr₁⟩ := hlooks () u₁ e more hu₁
      obtain ⟨w₂, hr₂⟩ := hlooks () u₂ e _ hu₂
      rw [hr₁, hr₂]
      exact .inl ⟨_, session, rfl, fun _ => rfl⟩

/-- **A text, and the text with more lines after it.** Where the text alone runs to its end the run goes on with the
lines after it, and with a budget that the text has used up to its tokens; where it fails before its end, so does the
other. -/
theorem runStream_ahead (session : Session) (done : List Value) (hl : Lined ts) (h₁ : Ahead s₁ ts first)
    (h₂ : Ahead s₂ ts (first ++ later)) (hfirst : first = [] ∨ ∃ e more, first = .error e :: more)
    {budget budget' : Nat} (hb : ts.length < budget) (hb' : ts.length < budget') :
    (∀ vs session', session.runStream (.ofLevel l) done budget s₁ = (.ok vs, session') →
      ∃ left, first = [] ∧ budget' ≤ left + ts.length ∧ session.runStream (.ofLevel l) done budget' s₂ =
        session'.runStream (.ofLevel l) vs.reverse left ⟨[], later⟩) ∧
    ∀ e session', session.runStream (.ofLevel l) done budget s₁ = (.error e, session') → e.NotUnexpectedEnd →
      session.runStream (.ofLevel l) done budget' s₂ = (.error e, session') := by
  induction budget generalizing ts s₁ s₂ session done budget' with
  | zero => cases hb
  | succ budget ih =>
    by_cases hne : ts = []
    · subst hne
      obtain rfl := h₁.eq_of_nil
      obtain rfl := h₂.eq_of_nil
      rcases hfirst with rfl | ⟨e, more, rfl⟩
      · refine ⟨fun vs session' h => ?_, fun e session' h => ?_⟩
        · cases h
          exact ⟨budget', rfl, Nat.le_refl _, by rw [List.reverse_reverse]; rfl⟩
        · cases h
      · obtain ⟨k, rfl⟩ := Nat.exists_eq_add_of_le' hb'
        refine ⟨fun vs session' h => ?_, fun e session' h _ => ?_⟩
        · cases h
        · cases h
          rfl
    · obtain ⟨k, rfl⟩ : ∃ k, budget' = k + 1 := ⟨budget' - 1, by omega⟩
      simp only [Session.runStream_succ]
      rcases round_ahead session hl hne h₁ h₂ hfirst with
        ⟨e, session', hr₁, hr₂⟩ | ⟨v, session', s₁', s₂', rest, hr₁, hr₂, hrest, hlt, h₁', h₂'⟩
      · rw [hr₁]
        refine ⟨fun vs session'' h => ?_, fun e' session'' h hno => ?_⟩
        · cases h
        · cases h
          rw [hr₂ hno]
      · rw [hr₁, hr₂]
        obtain ⟨hok, herror⟩ := ih session' (v.toList ++ done) hrest h₁' h₂' (by omega) (show rest.length < k by omega)
        refine ⟨fun vs session'' h => ?_, herror⟩
        obtain ⟨left, hnil, hleft, hrun⟩ := hok vs session'' h
        exact ⟨left, hnil, by omega, hrun⟩

end More

/-! ## Two texts as one -/

/-- the session without the line numbers in the trees of functions -/
def Session.withoutLines (s : Session) : Session := { s with heap := s.heap.withoutLines }

/-- an outcome without line numbers -/
def placelessOutcome (r : Except (Stop Fault) (List Value) × Session) : Except (Stop Fault) (List Value) × Session :=
  match r with
  | (.ok vs, s) => (.ok (vs.map Value.withoutLines), s.withoutLines)
  | (.error e, s) => (.error (e.map Fault.placeless), s.withoutLines)

/-- an outcome with other values before its own -/
def precededBy (vs : List Value) (r : Except (Stop Fault) (List Value) × Session) :
    Except (Stop Fault) (List Value) × Session := (r.1.map (vs ++ ·), r.2)

theorem Value.alike_refl (v : Value) : v.Alike false v := by
  cases v with
  | number d => exact .number d
  | string s => exact .string s
  | function f => exact .function ⟨rfl, rfl, rfl, .of_withoutLines rfl, .of_withoutLines rfl, nofun⟩
  | unit => exact .unit

theorem Session.alike_refl (s : Session) : s.Alike false s := by
  refine ⟨rfl, rfl, List.forall₂_same.2 fun scope _ => ⟨rfl, List.forall₂_same.2 fun b _ => ⟨rfl, b.2.alike_refl⟩⟩⟩

theorem Session.Alike.withoutLines_eq {s t : Session} (h : s.Alike false t) (hl : s.level = t.level) :
    s.withoutLines = t.withoutLines := by
  rw [Session.withoutLines, Session.withoutLines, hl, h.globals_eq, h.heap.withoutLines_eq]

theorem AlikeOutcome.placeless_eq {r r' : Except (Stop Fault) (List Value) × Session} (h : AlikeOutcome r r')
    (hl : r.2.level = r'.2.level) : placelessOutcome r = placelessOutcome r' := by
  cases h with
  | ok hvs hs => rw [placelessOutcome, placelessOutcome, Value.map_withoutLines_eq hvs, hs.withoutLines_eq hl]
  | error he hs => rw [placelessOutcome, placelessOutcome, he, hs.withoutLines_eq hl]

/-- **Source texts compose.** Let a text be of whole lines. If it runs to its end, then running it with another text
after it gives what running the two one after the other gives, up to line numbers: the values of both or the error of
the second, and the same session. If it fails, and not because it ends inside a statement, then whatever comes after it
changes nothing. -/
theorem Session.evalSource_composes (s : Session) (text more : String) (hw : WholeLines text) :
    (∀ vs s', s.evalSource text = (.ok vs, s') →
      placelessOutcome (s.evalSource (text ++ more)) = placelessOutcome (precededBy vs (s'.evalSource more))) ∧
    ∀ e s', s.evalSource text = (.error e, s') → (∀ fault, e = .raised fault → fault.isUnexpectedEnd = false) →
      s.evalSource (text ++ more) = (.error e, s') := by
  obtain ⟨ts, first, hl, hfirst, h₁, hwhole⟩ := ofSource_ahead text
  have h₂ := hwhole hw more
  obtain ⟨hok, herror⟩ := runStream_ahead s [] hl h₁ h₂ hfirst (Nat.lt_succ_of_le h₁.length_le)
    (Nat.lt_succ_of_le h₂.length_le)
  refine ⟨fun vs s' h => ?_, herror⟩
  obtain ⟨left, rfl, hleft, hrun⟩ := hok vs s' h
  have hlevel : s'.level = s.level := by
    have := runStream_level (.ofLevel s.level) s [] ((ofSource text).size + 1) (ofSource text)
    rwa [show s.runStream _ _ _ _ = _ from h] at this
  -- the lines after the text are those of the second text, further down
  have hmoved : TokenStream.mk [] (scanAll (1 + (Text.lines text.toList).length) (Text.lines more.toList)) =
      (ofSource more).mapLines (moved (Text.lines text.toList).length) := by
    rw [scanAll_relined _ Nat.one_pos]
    rfl
  have hbudget : s.evalSource (text ++ more) = s'.runStream (.ofLevel s.level) vs.reverse ((ofSource more).size + 1)
      ((ofSource more).mapLines (moved (Text.lines text.toList).length)) := by
    have hwhole := (ofSource (text ++ more)).length_tokens_le
    have hmore := ((ofSource more).mapLines (moved (Text.lines text.toList).length)).length_tokens_le
    rw [h₂.tokens_eq, List.length_append] at hwhole
    rw [size_mapLines] at hmore
    rw [← hmoved] at hmore ⊢
    refine hrun.trans (runStream_budget _ ?_ (Nat.lt_succ_of_le hmore))
    simp only [tokens, List.nil_append] at hwhole ⊢
    omega
  have hvalues : precededBy vs (s'.evalSource more) =
      s'.runStream (.ofLevel s.level) vs.reverse ((ofSource more).size + 1) (ofSource more) := by
    rw [runStream_done, List.reverse_reverse, ← hlevel]
    rfl
  rw [hbudget, hvalues]
  refine (AlikeOutcome.placeless_eq (runStream_relined (moved_zero _) _ s'.alike_refl
    (List.forall₂_same.2 fun v _ => v.alike_refl) _ _) ?_).symm
  rw [runStream_level, runStream_level]

/-- an assignment, and then a text that uses it and fails on its second line, which is the third of both; and a text
that fails, whatever comes after it -/
theorem Session.assignment_composes :
    let s := Session.new .closures
    let s' := (s.evalSource "x = 1\n").2
    placelessOutcome (s.evalSource ("x = 1\n" ++ "x = x + 1\ny\n")) =
        placelessOutcome (precededBy [.number Decimal.one] (s'.evalSource "x = x + 1\ny\n")) ∧
      s.evalSource ("y\n" ++ "x = 1\n") = (.error (.raised (.eval (.undefinedName "y" (some 1)))), s) := by
  intro s s'
  have hassigns : (s.evalSource "x = 1\n").1 = .ok [.number Decimal.one] := by cbv
  have hfails : s.evalSource "y\n" = (.error (.raised (.eval (.undefinedName "y" (some 1)))), s) := by cbv
  have hwhole : WholeLines "x = 1\n" := .inr ⟨"x = 1", rfl⟩
  refine ⟨(evalSource_composes s _ _ hwhole).1 _ s' (Prod.ext hassigns rfl), ?_⟩
  refine (evalSource_composes s "y\n" _ (.inr ⟨"y", rfl⟩)).2 _ s hfails ?_
  rintro fault ⟨⟩
  rfl

end Stone
