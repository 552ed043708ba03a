/-
Progress. Reading a stream uses it up: a token is taken, or a line is taken in, or a line with an error is dropped, and
nothing is ever put back (`Uses`). Every call ends, whether it succeeds or not, and a statement that is not asked for at
the end of input uses up something; so a reader that goes on after errors, from wherever the last call has stopped,
comes to the end of every text.

- `Built.leads`: whatever is built from looking and taking only uses the stream up.
- `takes_of_begins`: a rule that can begin with the next token takes it, also if it fails.
- `parseStatement_ends`: parsing a statement ends.
- `calls_progress`: ends and progress of all calls, on every stream.
-/
import Stone.Proofs.Lookahead

namespace Stone

open TokenStream Parsing Grammar Relation

/-! ## Streams are used up -/

/-- one token or one line of the stream is used up -/
inductive TokenStream.Uses : TokenStream → TokenStream → Prop
  | token {t : Token} {waiting : List Token} {lines : Lines} : Uses ⟨t :: waiting, lines⟩ ⟨waiting, lines⟩
  | line {ts waiting : List Token} {lines : Lines} : Uses ⟨waiting, .ok ts :: lines⟩ ⟨waiting ++ ts, lines⟩
  | badLine {e : ScanError} {waiting : List Token} {lines : Lines} : Uses ⟨waiting, .error e :: lines⟩ ⟨waiting, lines⟩

/-- some tokens and lines may have been used up -/
abbrev Leads : TokenStream → TokenStream → Prop := ReflTransGen Uses

/-- some tokens or lines have been used up -/
abbrev Advances : TokenStream → TokenStream → Prop := TransGen Uses

theorem size_lt_of_uses {s s' : TokenStream} (h : Uses s s') : s'.size < s.size := by
  cases h <;> simp only [size, List.length_cons, List.length_append, List.foldr_cons, lineSize] <;> omega

theorem size_le_of_leads {s s' : TokenStream} (h : Leads s s') : s'.size ≤ s.size := by
  induction h with
  | refl => exact Nat.le_refl _
  | tail _ hu ih => exact (Nat.le_of_lt (size_lt_of_uses hu)).trans ih

theorem size_lt_of_advances {s s' : TokenStream} (h : Advances s s') : s'.size < s.size := by
  obtain ⟨mid, hu, hl⟩ := TransGen.head'_iff.1 h
  exact (size_le_of_leads hl).trans_lt (size_lt_of_uses hu)

/-- nothing is left to use up -/
theorem eq_of_leads_nil {s : TokenStream} (h : Leads (ofTokens []) s) : s = ofTokens [] := by
  rcases ReflTransGen.cases_head h with h | ⟨mid, hu, -⟩
  · exact h.symm
  · cases hu

/-- the stream that a run leaves -/
def Ending.left {α : Type} : Ending α → TokenStream
  | .ok _ s => s
  | .error _ s => s

/-- the same end with another stream -/
def Ending.on {α : Type} (s : TokenStream) : Ending α → Ending α
  | .ok a _ => .ok a s
  | .error e _ => .error e s

section Looking

variable {waiting : List Token} {lines : Lines} {s s' : TokenStream} {t : Token} {e : ScanError}

theorem lookAhead_leads : Leads ⟨waiting, lines⟩ (lookAhead 0 waiting lines).2 := by
  induction lines generalizing waiting with
  | nil => exact .refl
  | cons line lines ih =>
    cases waiting with
    | cons t waiting => exact .refl
    | nil =>
      cases line with
      | ok ts => exact .head .line ih
      | error e => exact .single .badLine

/-- an error is a line that was dropped -/
theorem lookAhead_error (h : lookAhead 0 waiting lines = (.error e, s')) : s'.lines.length < lines.length := by
  induction lines generalizing waiting with
  | nil => cases h
  | cons line lines ih =>
    cases waiting with
    | cons t waiting => cases h
    | nil =>
      cases line with
      | ok ts => exact Nat.lt_succ_of_lt (ih h)
      | error e => cases h; exact Nat.lt_succ_self _

/-- a token that is shown waits, unless it is the end of input -/
theorem lookAhead_waits (h : lookAhead 0 waiting lines = (.ok t, s')) (ht : t.isInputEnd = false) :
    ∃ ws, s'.waiting = t :: ws := by
  induction lines generalizing waiting with
  | nil =>
    cases waiting with
    | nil => cases h; cases ht
    | cons u waiting => cases h; exact ⟨waiting, rfl⟩
  | cons line lines ih =>
    cases waiting with
    | cons u waiting => cases h; exact ⟨waiting, rfl⟩
    | nil =>
      cases line with
      | ok ts => exact ih h
      | error e => cases h

theorem peek_leads (s : TokenStream) : Leads s (s.peek 0).2 := lookAhead_leads

end Looking

theorem tail_leads (s : TokenStream) : Leads s ⟨s.waiting.tail, s.lines⟩ := by
  obtain ⟨waiting, lines⟩ := s
  cases waiting with
  | nil => exact .refl
  | cons t waiting => exact .single .token

namespace Parsing

variable {α β : Type} {p : Parsing α} {f : α → Parsing β}

/-- **Reading uses the stream up**, and puts nothing back. -/
theorem Built.leads (h : Built p) (s : TokenStream) : Leads s (Ending.left (p.run s)) := by
  induction h generalizing s with
  | pure a => exact .refl
  | throw e => exact .refl
  | peek =>
    have hp := peek_leads s
    rw [run_peek_eq]
    rcases hr : s.peek 0 with ⟨_ | _, s'⟩ <;> rw [hr] at hp <;> exact hp
  | read =>
    have hp := peek_leads s
    rw [run_read_eq]
    rcases hr : s.peek 0 with ⟨_ | _, s'⟩ <;> rw [hr] at hp
    · exact hp
    · exact hp.trans (tail_leads s')
  | @bind α β p f _ _ ihp ihf =>
    have hp := ihp s
    rw [EStateM.run_bind]
    cases hr : p.run s with
    | error e s' => rw [hr] at hp; exact hp
    | ok a s' => rw [hr] at hp; exact hp.trans (ihf a s')

end Parsing

/-! ## The next token -/

/-- the next token of the stream, with what there is once it has been looked at -/
def Offers (t : Token) (waiting : List Token) (lines : Lines) (s : TokenStream) : Prop :=
  s.peek 0 = (.ok t, ⟨t :: waiting, lines⟩)

/-- the action takes the next token if there is no other one, also if it fails -/
def Takes {α : Type} (t : Token) (p : Parsing α) : Prop := Ending.left (p.run (ofTokens [t])) = ofTokens []

section Next

variable {α β : Type} {p : Parsing α} {f : α → Parsing β} {t : Token} {waiting : List Token} {lines : Lines}
  {s : TokenStream}

/-- **The next token is taken or not.** As long as an action has not taken it, it has done what it does on this token
alone. -/
theorem Parsing.Built.offered (h : Built p) (hs : Offers t waiting lines s) :
    (Offers t waiting lines (Ending.left (p.run s)) ∧ p.run (ofTokens [t]) = Ending.on (ofTokens [t]) (p.run s)) ∨
      Leads ⟨waiting, lines⟩ (Ending.left (p.run s)) := by
  induction h generalizing s with
  | pure a => exact .inl ⟨hs, rfl⟩
  | throw e => exact .inl ⟨hs, rfl⟩
  | peek =>
    rw [run_peek_eq s, show s.peek 0 = _ from hs]
    exact .inl ⟨peek_cons t waiting lines, rfl⟩
  | read =>
    rw [run_read_eq s, show s.peek 0 = _ from hs]
    exact .inr .refl
  | @bind α β p f hp hf ihp ihf =>
    have hp := ihp hs
    rw [EStateM.run_bind, EStateM.run_bind]
    cases hr : p.run s with
    | error e s' =>
      rw [hr] at hp
      rcases hp with ⟨ho, heq⟩ | hl
      · exact .inl ⟨ho, by rw [heq]; rfl⟩
      · exact .inr hl
    | ok a s' =>
      rw [hr] at hp
      rcases hp with ⟨ho, heq⟩ | hl
      · rw [heq]
        exact ihf a ho
      · exact .inr (hl.trans ((hf a).leads s'))

theorem Takes.leads (h : Takes t p) (hb : Built p) (hs : Offers t waiting lines s) :
    Leads ⟨waiting, lines⟩ (Ending.left (p.run s)) := by
  refine (hb.offered hs).resolve_left ?_
  rintro ⟨-, heq⟩
  rw [Takes, heq] at h
  cases hr : p.run s <;> rw [hr] at h <;> cases h

theorem Takes.bind (h : Takes t p) (hf : ∀ a, Built (f a)) : Takes t (p >>= f) := by
  rw [Takes, EStateM.run_bind]
  rw [Takes] at h
  cases hr : p.run (ofTokens [t]) with
  | error e s' => rw [hr] at h; exact h
  | ok a s' =>
    rw [hr] at h
    obtain rfl : s' = ofTokens [] := h
    exact eq_of_leads_nil ((hf a).leads _)

theorem Takes.after {a : α} (h : p.run (ofTokens [t]) = .ok a (ofTokens [t])) (hf : Takes t (f a)) :
    Takes t (p >>= f) := by
  rw [Takes, EStateM.run_bind, h]
  exact hf

theorem takes_read : Takes t read := rfl

end Next

/-! ## Rules that can begin take the token -/

open Stone.Language

theorem firstThat_mono {begins begins' : RuleId → Option Bool} (h : ∀ id b, begins id = some b → begins' id = some b)
    {ids : List RuleId} {o : Option RuleId} (ho : firstThat begins ids = some o) : firstThat begins' ids = some o := by
  induction ids with
  | nil => exact ho
  | cons id ids ih =>
    rw [firstThat] at ho ⊢
    cases hb : begins id with
    | none => rw [hb] at ho; cases ho
    | some b =>
      rw [hb] at ho
      rw [h id b hb]
      cases b with
      | true => exact ho
      | false => exact ih ho

theorem elementBegins_mono {t : Token} {begins begins' : RuleId → Option Bool}
    (h : ∀ id b, begins id = some b → begins' id = some b) {e : Element} {b : Bool}
    (hb : elementBegins t begins e = some b) : elementBegins t begins' e = some b := by
  cases e with
  | rule id | optional id | many id | operators id _ _ => exact h id b hb
  | choice ids =>
    obtain ⟨o, ho, rfl⟩ := Option.map_eq_some_iff.1 hb
    exact Option.map_eq_some_iff.2 ⟨o, firstThat_mono h ho, rfl⟩
  | token _ _ | literal _ _ => exact hb

/-- a question that has an answer has it with more steps as well -/
theorem beginsWithin_mono {g : Grammar} {t : Token} {k k' : Nat} {id : RuleId} {b : Bool} (hk : k ≤ k')
    (h : g.beginsWithin t k id = some b) : g.beginsWithin t k' id = some b := by
  induction k generalizing k' id b with
  | zero => cases h
  | succ k ih =>
    obtain ⟨j, rfl⟩ : ∃ j, k' = j + 1 := ⟨k' - 1, by omega⟩
    rw [beginsWithin] at h ⊢
    cases he : (g.rule id).elements with
    | nil => rw [he] at h; exact h
    | cons e es => rw [he] at h; exact elementBegins_mono (fun id b => ih (by omega)) h

/-- an element that can begin takes the token, if the rules that it calls do -/
theorem element_takes {g : Grammar} {t : Token} {budget : Nat} {parse : RuleId → Parsing Node} {e : Element}
    {begins : RuleId → Option Bool} (hbudget : 0 < budget) (hbuilt : ∀ id, Built (parse id))
    (hbegins : ∀ id b, begins id = some b → g.begins t id = some b)
    (hparse : ∀ id ∈ calls e, begins id = some true → Takes t (parse id)) (h : elementBegins t begins e = some true) :
    Takes t (parseElement g budget parse e) := by
  have hask : ∀ id, begins id = some true → (g.canBegin id).run (ofTokens [t]) = .ok true (ofTokens [t]) := by
    intro id hid
    rw [run_canBegin, front_cons, hbegins id true hid]
    rfl
  cases e with
  | rule id => exact (hparse id List.mem_cons_self h).bind fun _ => .pure _
  | choice ids =>
    obtain ⟨o, ho, hsome⟩ := Option.map_eq_some_iff.1 h
    obtain ⟨id, rfl⟩ := Option.isSome_iff_exists.1 hsome
    have hchosen : g.chosen t ids = some (some id) := firstThat_mono hbegins ho
    refine .after ((run_choose g [t] ids).trans (congrArg _ hchosen)) ?_
    exact (hparse id (mem_of_firstThat ho).1 (mem_of_firstThat ho).2).bind fun _ => .pure _
  | optional id => exact .after (hask id h) ((hparse id List.mem_cons_self h).bind fun _ => .pure _)
  | many id =>
    obtain ⟨k, rfl⟩ : ∃ k, budget = k + 1 := ⟨budget - 1, by omega⟩
    refine .after (hask id h) ((hparse id List.mem_cons_self h).bind fun _ => ?_)
    exact .bind (built_parseMany (g.built_canBegin id) (hbuilt id) k) fun _ => .pure _
  | token cls kind =>
    refine takes_read.bind fun u => ?_
    split
    · exact .pure _
    · exact built_fail _
  | literal texts keep =>
    refine takes_read.bind fun u => ?_
    split
    · exact .pure _
    · exact built_fail _
  | operators id table kind =>
    exact (hparse id List.mem_cons_self h).bind fun _ => .bind (built_climb (hbuilt id) _ _ _) fun _ => .pure _

section Level

variable {l : Level} {t : Token} {budget n : Nat}

/-- what a rule calls first is not empty -/
theorem calls_first (l : Level) : ∀ id, id ≠ Place.program → ∀ e ∈ (elementsAt l id).head?, ∀ first ∈ calls e,
    first ≠ Place.program ∧ isEmptyRule l first = false :=
  forall_places (by cases l <;> decide +kernel) fun _ _ _ he => by cases he

/-- **A rule that can begin takes the token.** -/
theorem takes_of_begins {k : Nat} {id : RuleId} (hbudget : 0 < budget) (hn : k ≤ n) (hk : k ≤ 29)
    (hid : id ≠ Place.program) (he : isEmptyRule l id = false) (h : l.grammar.beginsWithin t k id = some true) :
    Takes t (l.grammar.parseRule budget n id) := by
  induction k generalizing n id with
  | zero => cases h
  | succ k ih =>
    obtain ⟨m, rfl⟩ : ∃ m, n = m + 1 := ⟨n - 1, by omega⟩
    have hfirst := calls_first l id hid
    rw [beginsWithin, elements_eq] at h
    rw [parseRule, parseInside, elements_eq]
    rw [isEmptyRule] at he
    cases hes : elementsAt l id with
    | nil => rw [hes] at he; cases he
    | cons e es =>
      rw [hes] at h hfirst
      have hbegins : ∀ id b, l.grammar.beginsWithin t k id = some b → l.grammar.begins t id = some b := by
        intro id b hb
        rw [begins_eq]
        exact beginsWithin_mono (by omega) hb
      have hbuilt := built_parseRule l.grammar budget m
      refine .bind (.bind ?_ fun _ => .bind (built_parseElements hbuilt es) fun _ => .pure _) fun _ => .pure _
      refine element_takes hbudget hbuilt hbegins (fun first hcalls hb => ?_) h
      obtain ⟨hprogram, hempty⟩ := hfirst e rfl first hcalls
      exact ih (by omega) (by omega) hprogram hempty hb

/-- a statement takes the token: it begins with it, or it is empty and the token stands where its end should be -/
theorem program_takes_next (hbudget : 0 < budget) (hn : 30 ≤ n) :
    Takes t (l.grammar.parseRule budget n Place.program) := by
  obtain ⟨m, rfl⟩ : ∃ m, n = m + 1 := ⟨n - 1, by omega⟩
  have hbuilt := built_parseRule l.grammar budget m
  obtain ⟨id, hc⟩ : ∃ id, l.grammar.chosen t (programRules l) = some (some id) := by
    rw [chosen_program]
    split
    · exact ⟨_, rfl⟩
    · split <;> exact ⟨_, rfl⟩
  obtain ⟨hmem, hbegins⟩ := mem_of_firstThat hc
  have hchoose := (run_choose l.grammar [t] (programRules l)).trans (congrArg _ hc)
  rw [parseRule, parseInside, elements_eq]
  refine .bind ?_ fun _ => .pure _
  cases he : isEmptyRule l id with
  | false =>
    have hid : id ≠ Place.program := by
      rintro rfl
      cases l <;> simp [programRules, Level.hasFunctions] at hmem
    rw [begins_eq] at hbegins
    refine .bind (.after hchoose ?_) fun _ => .bind (built_parseElements hbuilt _) fun _ => .pure _
    exact (takes_of_begins hbudget (by omega) (Nat.le_refl 29) hid he hbegins).bind fun _ => .pure _
  | true =>
    have hempty : (l.grammar.rule id).elements = [] := (elements_eq l id).trans (List.isEmpty_iff.1 he)
    obtain ⟨j, rfl⟩ : ∃ j, m = j + 1 := ⟨m - 1, by omega⟩
    refine .after (a := [(l.grammar.rule id).build.make []]) ?_ ?_
    · rw [parseElement, Parsing.lift_self, run_bind_answer hchoose, EStateM.run_bind, parseRule, parseInside, hempty]
      rfl
    · refine .bind (.bind (takes_read.bind fun u => ?_) fun _ => .pure _) fun _ => .pure _
      split
      · exact .pure _
      · exact built_fail _

end Level

/-! ## Calls end -/

/-- an error is one of a line, or it is the error on the bare tokens -/
theorem Parsing.Built.error_tokens {α : Type} {p : Parsing α} (h : Built p) {s s' : TokenStream} {e : Stop ParseError}
    (hr : p.run s = .error e s') :
    (∃ bad, e = .raised (.scan bad)) ∨ ∃ s'', p.run (ofTokens s.tokens) = .error e s'' := by
  have hpeek : ∀ {bad : ScanError} {s₁ : TokenStream},
      (EStateM.Result.error (.raised (.scan bad)) s₁ : Ending Token) = .error e s' → ∃ bad, e = .raised (.scan bad) := by
    intro bad s₁ h
    cases h
    exact ⟨bad, rfl⟩
  induction h generalizing s s' with
  | pure a => cases hr
  | throw e => cases hr; exact .inr ⟨_, rfl⟩
  | peek =>
    rw [run_peek_eq] at hr
    rcases hs : s.peek 0 with ⟨bad | _, s₁⟩ <;> rw [hs] at hr
    · exact .inl (hpeek hr)
    · cases hr
  | read =>
    rw [run_read_eq] at hr
    rcases hs : s.peek 0 with ⟨bad | _, s₁⟩ <;> rw [hs] at hr
    · exact .inl (hpeek hr)
    · cases hr
  | @bind α β p f hp hf ihp ihf =>
    have htokens := hp.run_tokens s
    rw [AgreesOnTokens] at htokens
    rw [EStateM.run_bind] at hr ⊢
    cases hps : p.run s with
    | error e₁ s₁ =>
      rw [hps] at hr
      cases hr
      refine (ihp hps hpeek).imp_right fun ⟨s'', hs''⟩ => ⟨s'', ?_⟩
      rw [hs'']
    | ok a s₁ =>
      rw [hps] at hr htokens
      rw [htokens.1]
      exact ihf a hr hpeek

/-- **Parsing a rule ends**, with any number of levels, if the budget is more than the tokens. -/
theorem parseRule_ends (l : Level) {budget : Nat} (n : Nat) (id : RuleId) {s : TokenStream} (hs : s.size < budget)
    (s' : TokenStream) : (l.grammar.parseRule budget n id).run s ≠ .error .endless s' := by
  intro hr
  have hlen : s.tokens.length < budget := s.length_tokens_le.trans_lt hs
  have hend := run_verdict (steady l) (begins_answered l) n id hlen
  rcases (built_parseRule l.grammar budget n id).error_tokens hr with ⟨bad, h⟩ | ⟨s'', h⟩
  · cases h
  · rw [RuleVerdict, h] at hend
    cases hend with
    | refused _ hat =>
      obtain ⟨s₁, hs₁, -⟩ := hat
      cases hs₁

/-- **Parsing a statement ends.** -/
theorem parseStatement_ends (l : Level) (s s' : TokenStream) :
    (ofLevel l).parseStatement.run s ≠ .error .endless s' := by
  rw [parseStatement, program_eq, run_parse]
  exact parseRule_ends l maxNesting Place.program (Nat.lt_succ_self _) s'

/-! ## Progress -/

section Calls

variable {l : Level} {s s' s₁ : TokenStream}

theorem atEnd_leads (s : TokenStream) : Leads s (Ending.left (atEnd.run s)) :=
  Built.leads (.bind .peek fun _ => .pure _) s

/-- a failure at the question for the end is a line that was dropped -/
theorem atEnd_error {e : Stop ParseError} (h : atEnd.run s = .error e s') :
    e ≠ .endless ∧ Advances s s' ∧ s'.lines.length < s.lines.length := by
  have hleads := atEnd_leads s
  rw [h] at hleads
  rw [run_atEnd] at h
  rcases hp : s.peek 0 with ⟨bad | t, s₁⟩ <;> rw [hp] at h
  · cases h
    have hlines := lookAhead_error hp
    refine ⟨nofun, ?_, hlines⟩
    rcases reflTransGen_iff_eq_or_transGen.1 hleads with rfl | hadvances
    · exact absurd hlines (Nat.lt_irrefl _)
    · exact hadvances
  · cases h

/-- where the input is not at its end there is a next token -/
theorem offers_of_atEnd (h : atEnd.run s = .ok false s₁) :
    ∃ t waiting, s₁ = ⟨t :: waiting, s₁.lines⟩ ∧ Offers t waiting s₁.lines s := by
  rw [run_atEnd] at h
  rcases hp : s.peek 0 with ⟨bad | t, s'⟩ <;> rw [hp] at h
  · cases h
  · injection h with ht hs
    subst hs
    obtain ⟨ws, hws⟩ := lookAhead_waits hp ht
    have hs' : s' = ⟨t :: ws, s'.lines⟩ := by rw [← hws]
    exact ⟨t, ws, hs', by rw [Offers, hp, ← hs']⟩

/-- **A statement takes the next token**, if there is one, whether it succeeds or fails. -/
theorem parseStatement_leads {t : Token} {waiting : List Token} {lines : Lines} (h : Offers t waiting lines s) :
    Leads ⟨waiting, lines⟩ (Ending.left ((ofLevel l).parseStatement.run s)) := by
  rw [parseStatement, program_eq, run_parse]
  exact (program_takes_next (Nat.succ_pos _) (by decide)).leads (built_parseRule _ _ _ _) h

theorem parseStatement_advances (h : atEnd.run s = .ok false s₁) :
    Advances s (Ending.left ((ofLevel l).parseStatement.run s)) ∧
      Advances s₁ (Ending.left ((ofLevel l).parseStatement.run s₁)) := by
  have hleads := atEnd_leads s
  rw [h] at hleads
  obtain ⟨t, waiting, hs₁, ho⟩ := offers_of_atEnd h
  have htoken : Uses s₁ ⟨waiting, s₁.lines⟩ := by
    nth_rewrite 1 [hs₁]
    exact .token
  have ho₁ : Offers t waiting s₁.lines s₁ := by
    nth_rewrite 2 [hs₁]
    exact peek_cons t waiting s₁.lines
  exact ⟨(TransGen.tail' hleads htoken).trans_left (parseStatement_leads ho),
    TransGen.head' htoken (parseStatement_leads ho₁)⟩

end Calls

/-- one round of a reader that goes on after errors: what it gets, and where it has stopped; none at the end of input -/
def Language.round (lang : Language) (s : TokenStream) : Option (Except (Stop ParseError) Node × TokenStream) :=
  match atEnd.run s with
  | .ok true _ => none
  | .error e s' => some (.error e, s')
  | .ok false s' =>
    match lang.parseStatement.run s' with
    | .ok n s'' => some (.ok n, s'')
    | .error e s'' => some (.error e, s'')

/-- all that such a reader gets; none if it has more rounds to make -/
def Language.readAll (lang : Language) : Nat → TokenStream → Option (List (Except (Stop ParseError) Node))
  | 0, _ => none
  | rounds + 1, s =>
    match lang.round s with
    | none => some []
    | some (answer, s') => (readAll lang rounds s').map (answer :: ·)

/-- every round uses something up -/
theorem round_advances {l : Level} {s s' : TokenStream} {answer : Except (Stop ParseError) Node}
    (h : (ofLevel l).round s = some (answer, s')) : Advances s s' := by
  rw [Language.round] at h
  cases ha : atEnd.run s with
  | error e s₁ => rw [ha] at h; cases h; exact (atEnd_error ha).2.1
  | ok b s₁ =>
    rw [ha] at h
    cases b with
    | true => cases h
    | false =>
      have hleads := atEnd_leads s
      have hadvances := (parseStatement_advances (l := l) ha).2
      rw [ha] at hleads
      simp only at h
      cases hp : (ofLevel l).parseStatement.run s₁ with
      | ok n s₂ => rw [hp] at h hadvances; cases h; exact TransGen.trans_right hleads hadvances
      | error e s₂ => rw [hp] at h hadvances; cases h; exact TransGen.trans_right hleads hadvances

/-- **Reading on after errors ends.** -/
theorem readAll_ends (l : Level) {rounds : Nat} {s : TokenStream} (h : s.size < rounds) :
    ∃ answers, (ofLevel l).readAll rounds s = some answers := by
  induction rounds generalizing s with
  | zero => cases h
  | succ rounds ih =>
    rw [readAll]
    cases hr : (ofLevel l).round s with
    | none => exact ⟨[], rfl⟩
    | some next =>
      obtain ⟨answer, s'⟩ := next
      have hsize := size_lt_of_advances (round_advances hr)
      obtain ⟨answers, hmore⟩ := ih (show s'.size < rounds by omega)
      exact ⟨answer :: answers, by simp only [hmore, Option.map_some]⟩

/-- **Progress.** On every stream, so on whatever earlier calls have left: both calls end; a question for the end that
fails has used up a line; a statement that is read where the input is not at its end uses up a token or a line, also if
it fails. So a reader that goes on after errors comes to the end, in no more rounds than there are tokens and lines. -/
theorem calls_progress (l : Level) (s : TokenStream) :
    (∀ s', atEnd.run s ≠ .error .endless s') ∧
      (∀ s', (ofLevel l).parseStatement.run s ≠ .error .endless s') ∧
      (∀ e s', atEnd.run s = .error e s' → Advances s s' ∧ s'.lines.length < s.lines.length) ∧
      (∀ s₁, atEnd.run s = .ok false s₁ →
        Advances s (Ending.left ((ofLevel l).parseStatement.run s)) ∧
          Advances s₁ (Ending.left ((ofLevel l).parseStatement.run s₁))) ∧
      ∃ answers, (ofLevel l).readAll (s.size + 1) s = some answers :=
  ⟨fun _ h => (atEnd_error h).1 rfl, parseStatement_ends l s, fun _ _ h => (atEnd_error h).2,
    fun _ h => parseStatement_advances h, readAll_ends l (Nat.lt_succ_self _)⟩

/-- a line that does not scan, and then a closing brace where a statement should be -/
def brokenLines : TokenStream :=
  ⟨[], [.error (.badToken 1 1), .ok [Token.identifier 2 "\x7d", Token.lineEnd 2]]⟩

/-- the first line is dropped, and the statement that comes next fails and takes the brace -/
theorem calls_progress_broken :
    (atEnd.run brokenLines = .error (.raised (.scan (.badToken 1 1))) ⟨[], brokenLines.lines.tail⟩ ∧
        Advances brokenLines ⟨[], brokenLines.lines.tail⟩) ∧
      atEnd.run ⟨[], brokenLines.lines.tail⟩ = .ok false ⟨[Token.identifier 2 "\x7d", Token.lineEnd 2], []⟩ ∧
      Advances ⟨[], brokenLines.lines.tail⟩
        (Ending.left (Language.closures.parseStatement.run ⟨[], brokenLines.lines.tail⟩)) :=
  ⟨⟨rfl, ((calls_progress .closures brokenLines).2.2.1 _ _ rfl).1⟩, rfl,
    ((calls_progress .closures ⟨[], brokenLines.lines.tail⟩).2.2.2.1 _ rfl).1⟩

end Stone
