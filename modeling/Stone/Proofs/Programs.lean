/-
Programs as lists of statements. Parsing a program and running a source text both go through a stream statement by
statement; `Statements` is what they agree on.

- `parseProgram_ok`: a source text parses if and only if its lines scan and its tokens are a list of statements.
- `runStream_eq`, `evalSource_eq`: where a source text parses, running it is running its statements.
-/
import Stone.Proofs.Rules
import Stone.Proofs.Scan
import Stone.Session

namespace Stone

open TokenStream Parsing Grammar

/-! ## One rule, on a stream -/

namespace TokenStream

theorem length_sound_le (lines : List (Except ScanError (List Token))) :
    (sound lines).length ≤ lines.foldr (fun line rest => lineSize line + rest) 0 := by
  induction lines with
  | nil => exact Nat.le_refl 0
  | cons line more ih =>
    cases line with
    | error e => exact Nat.zero_le _
    | ok ts =>
      rw [sound, List.length_append, List.foldr_cons, lineSize]
      omega

theorem length_tokens_le (s : TokenStream) : s.tokens.length ≤ s.size := by
  rw [tokens, List.length_append, size]
  exact Nat.add_le_add_left (length_sound_le s.lines) _

end TokenStream

section Parse

variable {g : Grammar} {id : RuleId} {s s' : TokenStream} {n : Node} {rest : List Token}

/-- an action that depends on the stream it finds -/
theorem run_get_bind {α : Type} (f : TokenStream → Parsing α) (s : TokenStream) :
    (do f (← get) : Parsing α).run s = (f s).run s := rfl

theorem run_parse (g : Grammar) (id : RuleId) (s : TokenStream) :
    (g.parse id).run s = (g.parseRule (s.size + 1) maxNesting id).run s :=
  run_get_bind (fun s => g.parseRule (s.size + 1) maxNesting id) s

/-- what a rule gives has a derivation -/
theorem parseRule_derives {budget nesting : Nat} (h : (g.parseRule budget nesting id).run s = .ok n s') :
    Derives g nesting (.rule id) s.tokens [n] s'.tokens ∧ (s'.Clean ↔ s.Clean) := by
  have ha := (built_parseRule g budget nesting id).run_tokens s
  unfold AgreesOnTokens at ha
  rw [h] at ha
  obtain ⟨rest, hr, hd⟩ := justified_rule (derives_of_run g budget nesting id) ha.1
  obtain rfl : s'.tokens = rest := by simpa [ofTokens] using hr
  exact ⟨hd, ha.2⟩

/-- what parsing gives has a derivation -/
theorem parse_derives (h : (g.parse id).run s = .ok n s') :
    Derives g maxNesting (.rule id) s.tokens [n] s'.tokens ∧ (s'.Clean ↔ s.Clean) :=
  parseRule_derives (by rwa [run_parse] at h)

/-- what parsing gives on the bare tokens it gives on the stream -/
theorem parse_ok (hc : s.Clean)
    (h : (g.parseRule (s.size + 1) maxNesting id).run (ofTokens s.tokens) = .ok n (ofTokens rest)) :
    ∃ s', (g.parse id).run s = .ok n s' ∧ s'.tokens = rest ∧ s'.Clean := by
  have ha := (built_parseRule g (s.size + 1) maxNesting id).run_tokens s
  unfold AgreesOnTokens at ha
  rw [run_parse]
  cases hr : (g.parseRule (s.size + 1) maxNesting id).run s with
  | ok m s' =>
    rw [hr] at ha
    obtain ⟨hok, hclean⟩ := ha
    rw [h] at hok
    injection hok with hn hs
    refine ⟨s', by rw [hn], ?_, hclean.2 hc⟩
    simpa [ofTokens] using hs.symm
  | error e s' =>
    rw [hr] at ha
    cases h.symm.trans (ha hc)

theorem parse_error (hc : s.Clean) {e : Stop ParseError} {s₀ : TokenStream}
    (h : (g.parseRule (s.size + 1) maxNesting id).run (ofTokens s.tokens) = .error e s₀) :
    ∃ s', (g.parse id).run s = .error e s' := by
  have ha := (built_parseRule g (s.size + 1) maxNesting id).run_tokens s
  unfold AgreesOnTokens at ha
  rw [run_parse]
  cases hr : (g.parseRule (s.size + 1) maxNesting id).run s with
  | ok m s' =>
    rw [hr] at ha
    cases h.symm.trans ha.1
  | error e' s' =>
    rw [hr] at ha
    have he := h.symm.trans (ha hc)
    injection he with he _
    exact ⟨s', by rw [he]⟩

/-- a derivation within the limit is carried out on a stream -/
theorem parse_of_derives (hg : g.Steady) (hc : s.Clean) (h : Derives g maxNesting (.rule id) s.tokens [n] rest) :
    ∃ s', (g.parse id).run s = .ok n s' ∧ s'.tokens = rest ∧ s'.Clean := by
  have hlen := s.length_tokens_le
  have hr : ((Task.rule id).run g (s.size + 1) maxNesting (s.size + 1)).run (ofTokens s.tokens) =
      .ok [n] (ofTokens rest) := h.run hg trivial (by omega) (by omega)
  refine parse_ok hc ?_
  simp only [Task.run, EStateM.run_bind] at hr
  cases hp : (g.parseRule (s.size + 1) maxNesting id).run (ofTokens s.tokens) with
  | ok m s' => rw [hp] at hr; cases hr; rfl
  | error e s' => rw [hp] at hr; cases hr

end Parse

/-! ## Statements -/

/-- the tokens are these statements with their ends, the empty ones included -/
inductive Statements (l : Level) : List Token → List Node → Prop
  | done : Statements l [] []
  | more {ts rest : List Token} {n : Node} {ns : List Node} :
      Derives l.grammar maxNesting (.rule Place.program) ts [n] rest → Statements l rest ns → Statements l ts (n :: ns)

/-- statements without the empty ones -/
def withoutEmpty (ns : List Node) : List Node := ns.filter fun n => !n.is .empty

theorem withoutEmpty_cons (n : Node) (ns : List Node) :
    withoutEmpty (n :: ns) = if n.is .empty then withoutEmpty ns else n :: withoutEmpty ns := by
  rw [withoutEmpty, List.filter_cons]
  cases n.is .empty <;> rfl

/-- a statement takes its end at least -/
theorem program_takes {l : Level} {k : Nat} {ts rest : List Token} {ns : List Node}
    (h : Derives l.grammar k (.rule Place.program) ts ns rest) : rest.length < ts.length := by
  cases h with
  | rule h =>
    rw [Language.elements_eq] at h
    cases h with
    | cons h1 h2 =>
      have := h1.suffix.length_le
      cases h2 with
      | cons h3 h4 =>
        cases h3 with
        | literal _ =>
          have := h4.suffix.length_le
          simp only [List.length_cons] at *
          omega

namespace Statements

variable {l : Level} {ts rest : List Token} {ns : List Node}

theorem length_le (h : Statements l ts ns) : ns.length ≤ ts.length := by
  induction h with
  | done => exact Nat.le_refl 0
  | more hd _ ih =>
    have := program_takes hd
    rw [List.length_cons]
    omega

end Statements

/-! ## Programs -/

section Programs

variable {l : Level} {s s' : TokenStream} {raw ns : List Node} {budget : Nat}

/-- no token before the end is the end token -/
def Unended (ts : List Token) : Prop := ∀ t ∈ ts, t.isInputEnd = false

theorem isInputEnd_front {ts : List Token} (h : Unended ts) : (front ts).isInputEnd = true ↔ ts = [] := by
  cases ts with
  | nil => exact ⟨fun _ => rfl, fun _ => rfl⟩
  | cons t ts => rw [front_cons, h t List.mem_cons_self]; exact ⟨nofun, nofun⟩

theorem Unended.suffix {ts rest : List Token} (h : Unended ts) (hs : rest <:+ ts) : Unended rest :=
  fun t ht => h t (hs.subset ht)

theorem run_atEnd (s : TokenStream) :
    Language.atEnd.run s =
      match s.peek 0 with
      | (.ok t, s') => .ok t.isInputEnd s'
      | (.error e, s') => .error (.raised (.scan e)) s' := by
  rw [Language.atEnd, EStateM.run_bind]
  simp only [Parsing.peek, ofStream, EStateM.run]
  rcases s.peek 0 with ⟨_ | _, _⟩ <;> rfl

theorem atEnd_run {b : Bool} (h : Language.atEnd.run s = .ok b s') :
    b = (front s.tokens).isInputEnd ∧ s'.tokens = s.tokens ∧ (s'.Clean ↔ s.Clean) ∧
      (s'.waiting = [] → s'.lines = []) := by
  have hp := peek_shows s
  rw [run_atEnd] at h
  rcases hr : s.peek 0 with ⟨e | t, s₁⟩
  · rw [hr] at h
    cases h
  · rw [hr] at h hp
    cases h
    obtain ⟨ht, hs, hc, hl⟩ := hp
    exact ⟨by rw [ht], hs, hc, hl⟩

theorem atEnd_of_clean (hc : s.Clean) :
    ∃ s', Language.atEnd.run s = .ok (front s.tokens).isInputEnd s' ∧ s'.tokens = s.tokens ∧ s'.Clean := by
  have hp := peek_shows s
  rw [run_atEnd]
  rcases hr : s.peek 0 with ⟨e | t, s₁⟩
  · rw [hr] at hp
    exact absurd hc hp
  · rw [hr] at hp
    obtain ⟨ht, hs, hcl, -⟩ := hp
    exact ⟨s₁, by rw [ht], hs, hcl.2 hc⟩

/-- a stream whose tokens are used up has no more lines with errors -/
theorem clean_of_atEnd (hu : Unended s.tokens) (h : Language.atEnd.run s = .ok true s') : s.tokens = [] ∧ s.Clean := by
  obtain ⟨hb, hs, hc, hl⟩ := atEnd_run h
  have ht := (isInputEnd_front hu).1 hb.symm
  have hw : s'.waiting = [] := (List.append_eq_nil_iff.1 (hs.trans ht)).1
  refine ⟨ht, hc.1 fun line hline => ?_⟩
  rw [hl hw] at hline
  cases hline

theorem parseStatement_derives {n : Node} (h : (Language.ofLevel l).parseStatement.run s = .ok n s') :
    Derives l.grammar maxNesting (.rule Place.program) s.tokens [n] s'.tokens ∧ (s'.Clean ↔ s.Clean) := by
  rw [Language.parseStatement, Language.program_eq] at h
  exact parse_derives h

theorem parseStatement_of_derives {n : Node} {rest : List Token} (hc : s.Clean)
    (h : Derives l.grammar maxNesting (.rule Place.program) s.tokens [n] rest) :
    ∃ s', (Language.ofLevel l).parseStatement.run s = .ok n s' ∧ s'.tokens = rest ∧ s'.Clean := by
  rw [Language.parseStatement, Language.program_eq]
  exact parse_of_derives (Language.steady l) hc h

/-- where a statement begins the input is not at its end -/
theorem front_not_inputEnd {ts rest : List Token} {ms : List Node} (hu : Unended ts)
    (h : Derives l.grammar maxNesting (.rule Place.program) ts ms rest) : (front ts).isInputEnd = false := by
  rw [Bool.eq_false_iff, ne_eq, isInputEnd_front hu]
  rintro rfl
  exact absurd (program_takes h) (Nat.not_lt_zero _)

/-- what parses is a list of statements -/
theorem statements_of_parse (hu : Unended s.tokens)
    (h : ((Language.ofLevel l).parseStatements budget).run s = .ok ns s') :
    ∃ raw, Statements l s.tokens raw ∧ ns = withoutEmpty raw ∧ s.Clean := by
  induction budget generalizing s ns s' with
  | zero => cases h
  | succ budget ih =>
    rw [Language.parseStatements] at h
    obtain ⟨b, s₁, h1, h⟩ := ok_of_bind h
    obtain ⟨-, hs1, hc1, -⟩ := atEnd_run h1
    cases b with
    | true =>
      obtain ⟨ht, hc⟩ := clean_of_atEnd hu h1
      cases h
      exact ⟨[], ht ▸ .done, rfl, hc⟩
    | false =>
      obtain ⟨n, s₂, h2, h⟩ := ok_of_bind h
      obtain ⟨more, s₃, h3, h⟩ := ok_of_bind h
      obtain ⟨hd, hc2⟩ := parseStatement_derives h2
      rw [hs1] at hd
      obtain ⟨raw, hraw, rfl, hc⟩ := ih (hu.suffix hd.suffix) h3
      cases h
      exact ⟨n :: raw, .more hd hraw, (withoutEmpty_cons n raw).symm, hc1.1 (hc2.1 hc)⟩

/-- a list of statements parses -/
theorem parse_of_statements (hu : Unended s.tokens) (hc : s.Clean) (h : Statements l s.tokens raw)
    (hb : raw.length < budget) :
    ∃ s', ((Language.ofLevel l).parseStatements budget).run s = .ok (withoutEmpty raw) s' := by
  generalize hts : s.tokens = ts at h
  induction h generalizing s budget with
  | done =>
    obtain ⟨k, rfl⟩ : ∃ k, budget = k + 1 := ⟨budget - 1, by omega⟩
    obtain ⟨s₁, h1, -, -⟩ := atEnd_of_clean hc
    rw [(isInputEnd_front hu).2 hts] at h1
    refine ⟨s₁, ?_⟩
    rw [Language.parseStatements, EStateM.run_bind, h1]
    rfl
  | @more _ _ _ ns hd _ ih =>
    rw [List.length_cons] at hb
    obtain ⟨k, rfl⟩ : ∃ k, budget = k + 1 := ⟨budget - 1, by omega⟩
    obtain ⟨s₁, h1, hs1, hc1⟩ := atEnd_of_clean hc
    rw [front_not_inputEnd hu (hts ▸ hd)] at h1
    rw [← hts, ← hs1] at hd
    obtain ⟨s₂, h2, hs2, hc2⟩ := parseStatement_of_derives hc1 hd
    have hlen : ns.length < k := by omega
    obtain ⟨s₃, h3⟩ := ih (hs2 ▸ (hs1 ▸ hu).suffix hd.suffix) hc2 hlen hs2
    refine ⟨s₃, ?_⟩
    rw [Language.parseStatements, EStateM.run_bind, h1]
    simp only [Bool.false_eq_true, if_false, EStateM.run_bind, h2, h3, withoutEmpty_cons]
    rfl

/-- statements that run one after the other, with the values that were there before -/
def Session.resume (s : Session) (done : List Value) (ns : List Node) : Except (Stop Fault) (List Value) × Session :=
  match s.evalNodes ns with
  | (.ok vs, s') => (.ok (done.reverse ++ vs), s')
  | (.error e, s') => (.error e, s')

theorem Session.resume_cons (s : Session) (done : List Value) (n : Node) (ns : List Node) :
    s.resume done (n :: ns) =
      match s.evalNode n with
      | (.ok v, s') => s'.resume (v :: done) ns
      | (.error e, s') => (.error e, s') := by
  rw [resume, Session.evalNodes]
  rcases s.evalNode n with ⟨_ | v, s'⟩
  · rfl
  · simp only [resume]
    rcases s'.evalNodes ns with ⟨_ | vs, s''⟩
    · rfl
    · simp

/-- **Running a list of statements.** Reading them one by one makes no difference. -/
theorem runStream_eq (hu : Unended s.tokens) (hc : s.Clean) (h : Statements l s.tokens raw) (hb : raw.length < budget)
    (session : Session) (done : List Value) :
    Session.runStream (.ofLevel l) session done budget s = session.resume done (withoutEmpty raw) := by
  generalize hts : s.tokens = ts at h
  induction h generalizing s budget session done with
  | done =>
    obtain ⟨k, rfl⟩ : ∃ k, budget = k + 1 := ⟨budget - 1, by omega⟩
    obtain ⟨s₁, h1, -, -⟩ := atEnd_of_clean hc
    rw [(isInputEnd_front hu).2 hts] at h1
    rw [Session.runStream, h1]
    simp [Session.resume, withoutEmpty, Session.evalNodes]
  | @more _ _ n ns hd _ ih =>
    rw [List.length_cons] at hb
    obtain ⟨k, rfl⟩ : ∃ k, budget = k + 1 := ⟨budget - 1, by omega⟩
    obtain ⟨s₁, h1, hs1, hc1⟩ := atEnd_of_clean hc
    rw [front_not_inputEnd hu (hts ▸ hd)] at h1
    rw [← hts, ← hs1] at hd
    obtain ⟨s₂, h2, hs2, hc2⟩ := parseStatement_of_derives hc1 hd
    have hlen : ns.length < k := by omega
    have hmore := ih (hs2 ▸ (hs1 ▸ hu).suffix hd.suffix) hc2 hlen
    rw [Session.runStream, h1, withoutEmpty_cons]
    simp only [h2]
    cases he : n.is .empty with
    | true => exact hmore session done hs2
    | false =>
      simp only [Bool.false_eq_true, if_false]
      rw [Session.resume_cons]
      rcases hv : session.evalNode n with ⟨e | v, session'⟩
      · rfl
      · exact hmore session' (v :: done) hs2

end Programs

/-! ## Source texts -/

theorem unended_ofSource (source : String) : Unended (ofSource source).tokens :=
  fun t ht => (ofSource_scanned source t ht).not_inputEnd

theorem parseProgram_eq (l : Level) (source : String) :
    parseProgram l source =
      match ((Language.ofLevel l).parseStatements ((ofSource source).size + 1)).run (ofSource source) with
      | .ok ns _ => .ok ns
      | .error e _ => .error e := by
  rw [parseProgram, Parsing.onSource, Language.parseProgram]
  rw [run_get_bind fun s => (Language.ofLevel l).parseStatements (s.size + 1)]
  cases ((Language.ofLevel l).parseStatements ((ofSource source).size + 1)).run (ofSource source) <;> rfl

/-- **What it means to parse.** A source text parses if and only if its lines scan and its tokens are statements. -/
theorem parseProgram_ok {l : Level} {source : String} {ns : List Node} :
    parseProgram l source = .ok ns ↔
      (ofSource source).Clean ∧ ∃ raw, Statements l (ofSource source).tokens raw ∧ ns = withoutEmpty raw := by
  rw [parseProgram_eq]
  constructor
  · intro h
    cases hr : ((Language.ofLevel l).parseStatements ((ofSource source).size + 1)).run (ofSource source) with
    | error e s' => rw [hr] at h; cases h
    | ok ms s' =>
      rw [hr] at h
      cases h
      obtain ⟨raw, hraw, hns, hc⟩ := statements_of_parse (unended_ofSource source) hr
      exact ⟨hc, raw, hraw, hns⟩
  · rintro ⟨hc, raw, hraw, rfl⟩
    have hlen := (ofSource source).length_tokens_le
    have := hraw.length_le
    obtain ⟨s', hs⟩ := parse_of_statements (unended_ofSource source) hc hraw
      (show raw.length < (ofSource source).size + 1 by omega)
    rw [hs]

/-- **Running a source text that parses** is running its statements. -/
theorem evalSource_eq {session : Session} {source : String} {ns : List Node}
    (h : parseProgram session.level source = .ok ns) : session.evalSource source = session.evalNodes ns := by
  obtain ⟨hc, raw, hraw, rfl⟩ := parseProgram_ok.1 h
  have hlen := (ofSource source).length_tokens_le
  have := hraw.length_le
  rw [Session.evalSource, runStream_eq (unended_ofSource source) hc hraw (by omega) session [], Session.resume]
  rcases session.evalNodes (withoutEmpty raw) with ⟨_ | vs, s'⟩ <;> rfl

end Stone
