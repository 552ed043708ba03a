/-
Parsing after a late insertion. A further alternative that cannot begin with any token of a stream is never chosen, and
the rule reads what it read before. But a rule that is no choice becomes one by the insertion, and a choice looks before
it parses: a rule whose first element may be left out is then refused where it could have begun with what comes after
that element. A look is also what meets a line that does not scan.

- `parses_before`: what a rule parses after the insertion it parsed before it.
- `parses_after`: what it parsed before it parses after the insertion, or it is refused for one of these two reasons.
- `insertion_keeps_alternatives`: both, for every rule of the table.
-/
import Stone.Proofs.Comparison
import Stone.Proofs.Insertion

namespace Stone

open TokenStream Parsing Grammar Stone.Language

/-! ## Rules that were parsed have an answer -/

namespace Grammar

/-- the first element that a rule comes to may be left out -/
inductive BeginsOptional (g : Grammar) : RuleId → Prop
  | optional {id x : RuleId} {more : List Element} :
      (g.rule id).elements = .optional x :: more → BeginsOptional g id
  | many {id x : RuleId} {more : List Element} : (g.rule id).elements = .many x :: more → BeginsOptional g id
  | rule {id x : RuleId} {more : List Element} :
      (g.rule id).elements = .rule x :: more → BeginsOptional g x → BeginsOptional g id
  | operators {id x : RuleId} {table : OperatorTable} {kind : ListKind} {more : List Element} :
      (g.rule id).elements = .operators x table kind :: more → BeginsOptional g x → BeginsOptional g id

end Grammar

/-- the element may be left out, or begins with one that may -/
def Element.MayBeLeft (g : Grammar) : Element → Prop
  | .optional _ | .many _ => True
  | .rule x | .operators x _ _ => g.BeginsOptional x
  | .choice _ | .token _ _ | .literal _ _ => False

theorem Element.MayBeLeft.beginsOptional {g : Grammar} {id : RuleId} {e : Element} {more : List Element}
    (h : e.MayBeLeft g) (he : (g.rule id).elements = e :: more) : g.BeginsOptional id := by
  cases e with
  | optional x => exact .optional he
  | many x => exact .many he
  | rule x => exact .rule he h
  | operators x table kind => exact .operators he h
  | choice _ | token _ _ | literal _ _ => exact h.elim

/-- the question whether the task can begin with the token has an answer; the answer is no only where something may be
left out -/
def Task.Answered (g : Grammar) (t : Token) : Task → Prop
  | .rule id => ∃ b, g.sight (.ok t) id = .ok b ∧ (b = false → g.BeginsOptional id)
  | .element e | .elements (e :: _) =>
    ∃ b, elementSight (.ok t) (g.sight (.ok t)) e = .ok b ∧ (b = false → e.MayBeLeft g)
  | .many id => ∃ b, g.sight (.ok t) id = .ok b
  | .elements [] | .climb _ _ _ _ _ => True

/-- **What was parsed could be asked about**, and could begin unless it begins with something that may be left out. -/
theorem Derives.answered {g : Grammar} {n : Nat} {task : Task} {ts rest : List Token} {ns : List Node}
    (h : Derives g n task ts ns rest) : task.Answered g (front ts) := by
  induction h with
  | @rule n id ts rest ns _ ih =>
    cases he : (g.rule id).elements with
    | nil =>
      refine ⟨true, sight_stable (k := 1) ?_, nofun⟩
      rw [sightWithin, he]
    | cons first more =>
      rw [he] at ih
      obtain ⟨b, hb, hno⟩ := ih
      refine ⟨b, sight_stable (k := g.rules.size + 2) ?_, fun hf => (hno hf).beginsOptional he⟩
      rw [sightWithin, he]
      exact hb
  | nil | climbStop _ => trivial
  | cons _ _ ih1 _ => exact ih1
  | call _ ih => exact ih
  | @choice n ids id ts rest ns hchosen _ _ =>
    refine ⟨true, ?_, nofun⟩
    have hsight : g.sight (.ok (front ts)) = fun x => ofAnswer (g.begins (front ts) x) := sightWithin_token _ _ _
    have hfirst : firstThat (g.begins (front ts)) ids = some (some id) := hchosen
    rw [elementSight, hsight, firstSight_ofAnswer, hfirst]
    rfl
  | skipped hb => exact ⟨false, sight_token.2 hb, fun _ => trivial⟩
  | taken hb _ _ => exact ⟨true, sight_token.2 hb, nofun⟩
  | repetition _ ih =>
    obtain ⟨b, hb⟩ := ih
    exact ⟨b, hb, fun _ => trivial⟩
  | manyNil hb => exact ⟨false, sight_token.2 hb⟩
  | manyCons hb _ _ _ _ => exact ⟨true, sight_token.2 hb⟩
  | token ha => exact ⟨true, congrArg Except.ok ha, nofun⟩
  | literal ha => exact ⟨true, congrArg Except.ok ha, nofun⟩
  | chain _ _ ih1 _ => exact ih1
  | climbStep _ _ _ _ _ _ _ _ => trivial

/-! ## Echoes -/

/-- on a stream of the same content, a last part of `xs`, the second action does what the first has done, or it fails
with an error that is excused -/
def Echoes (xs : List Entry) (excused : ParseError → Prop) {α β : Type} (V : α → β → Prop) (p : Parsing α)
    (q : Parsing β) : Prop :=
  ∀ s s' : TokenStream, s.content = s'.content → s.content <:+ xs → ∀ a u, p.run s = .ok a u →
    (∃ b u', q.run s' = .ok b u' ∧ V a b ∧ u.content = u'.content ∧ u.content <:+ xs) ∨
      ∃ e u', q.run s' = .error (.raised e) u' ∧ excused e

section Echo

variable {xs : List Entry} {excused : ParseError → Prop} {α β γ δ : Type} {V : α → β → Prop} {W : γ → δ → Prop}
  {p : Parsing α} {q : Parsing β}

theorem Echoes.bind {f : α → Parsing γ} {f' : β → Parsing δ} (hp : Echoes xs excused V p q)
    (hf : ∀ a b, V a b → Echoes xs excused W (f a) (f' b)) : Echoes xs excused W (p >>= f) (q >>= f') := by
  intro s s' hs hxs c u hr
  obtain ⟨a, mid, hmid, hr⟩ := ok_of_bind hr
  rw [EStateM.run_bind]
  rcases hp s s' hs hxs a mid hmid with ⟨b, mid', hq, hv, hcontent, hsuffix⟩ | ⟨e, u', hq, he⟩
  · rw [hq]
    exact hf a b hv mid mid' hcontent hsuffix c u hr
  · exact .inr ⟨e, u', by rw [hq], he⟩

/-- an action that fails in any case is followed by anything -/
theorem echoes_of_fails (h : ∀ s a u, p.run s ≠ .ok a u) : Echoes xs excused V p q :=
  fun s _ _ _ a u hr => absurd hr (h s a u)

theorem peek_fails (f : Token → ParseError) (s : TokenStream) (a : α) (u : TokenStream) :
    (do fail (f (← peek)) : Parsing α).run s ≠ .ok a u := by
  intro hr
  obtain ⟨t, mid, -, hr⟩ := ok_of_bind hr
  cases hr

theorem comparison_echoes : Comparison (Echoes xs excused) where
  pure hv := fun s s' hs hxs a u hr => by
    cases hr
    exact .inl ⟨_, s', rfl, hv, hs, hxs⟩
  bind := Echoes.bind
  endless _ := echoes_of_fails fun _ _ _ hr => nomatch hr
  stuck := echoes_of_fails (peek_fails _)
  tooDeep := echoes_of_fails (peek_fails _)

/-- an action echoes itself -/
theorem echoes_built {W : α → α → Prop} (h : Built p) (hW : ∀ a, W a a) : Echoes xs excused W p p := by
  intro s s' hs hxs a u hr
  obtain ⟨u', hr', hu⟩ := h.by_content hs hr
  obtain ⟨ts, hts⟩ := h.taken hr
  exact .inl ⟨a, u', hr', hW a, hu, List.IsSuffix.trans ⟨_, hts.symm⟩ hxs⟩

theorem built_takeOperator (table : OperatorTable) (waiting : Option Precedence) : Built (takeOperator table waiting) := by
  refine .bind (built_nextOperator table) fun o => ?_
  cases o with
  | none => exact .pure _
  | some p =>
    simp only
    split
    · exact .bind .read fun _ => .pure _
    · exact .pure _

/-- the same element in two tables, whose questions and rules echo each other -/
theorem echoes_element {g g' : Grammar} {budget : Nat} {parse parse' : RuleId → Parsing Node} {e : Element}
    (hasks : ∀ y ∈ calls e, Echoes xs excused Eq (g.canBegin y) (g'.canBegin y))
    (hcalls : ∀ y ∈ calls e, Echoes xs excused (SameTree id) (parse y) (parse' y)) :
    Echoes xs excused (SameTrees id) (g.parseElement budget parse e) (g'.parseElement budget parse' e) := by
  refine comparison_echoes.parseElement hasks hcalls (fun htakes => ?_) ?_ (.inl (Nat.le_refl budget))
  · cases e with
    | token cls kind =>
      refine echoes_built (.bind .read fun t => ?_) fun _ => rfl
      split
      · exact .pure _
      · exact built_fail _
    | literal texts keep =>
      refine echoes_built (.bind .read fun t => ?_) fun _ => rfl
      split
      · exact .pure _
      · exact built_fail _
    | _ => cases htakes
  · exact fun _ table _ _ waiting => echoes_built (built_takeOperator table waiting) fun _ => rfl

end Echo

/-! ## Looking -/

section Looking

variable {xs : List Entry} {excused : ParseError → Prop} {g g' : Grammar} {r c : RuleId}

/-- an answer that was given is the one by the next entry -/
theorem canBegin_ok {id : RuleId} {b : Bool} {s u : TokenStream} (hr : (g.canBegin id).run s = .ok b u) :
    g.sight (look 0 s.content).1 id = .ok b ∧ u.content = s.content :=
  (sees_canBegin g s.content id).ok rfl hr

theorem canBegin_of_sight {id : RuleId} {b : Bool} {s : TokenStream}
    (hb : g.sight (look 0 s.content).1 id = .ok b) :
    ∃ u, (g.canBegin id).run s = .ok b u ∧ u.content = s.content := by
  have h := sees_canBegin g s.content id
  rw [hb] at h
  exact h.run rfl

/-- the token that an entry shows; an error may be in the place of any token, so of the end of input too -/
def shown : Entry → Token
  | .ok t => t
  | .error _ => Token.inputEnd

/-- an answer is an answer about the token that is shown -/
theorem sight_shown {entry : Entry} {id : RuleId} {b : Bool} (hb : g.sight entry id = .ok b) :
    g.sight (.ok (shown entry)) id = .ok b := by
  cases entry with
  | ok t => exact hb
  | error e =>
    rcases sightWithin_error g e (g.rules.size + 1) id with h | h
    · rw [sight, h] at hb
      cases hb
    · exact (h Token.inputEnd).trans hb

/-- a question that has an answer about the token that is shown gets it, or meets an error -/
theorem asks_or_scan {α : Type} {p : Parsing α} (answer : Entry → Except (Stop ParseError) α) {a : α} {s : TokenStream}
    (hp : Sees s.content p (answer (look 0 s.content).1))
    (herror : ∀ e, answer (.error e) = .error (.raised (.scan e)) ∨ ∀ t, answer (.ok t) = answer (.error e))
    (ha : answer (.ok (shown (look 0 s.content).1)) = .ok a) :
    (∃ u, p.run s = .ok a u ∧ u.content = s.content) ∨
      ∃ e u, p.run s = .error (.raised (.scan e)) u ∧ .error e ∈ s.content := by
  cases hx : (look 0 s.content).1 with
  | ok t =>
    rw [hx] at hp ha
    rw [show answer (.ok t) = .ok a from ha] at hp
    exact .inl (hp.run rfl)
  | error e =>
    rw [hx] at hp ha
    rcases herror e with h | h
    · rw [h] at hp
      have htells := hp s rfl
      cases hr : p.run s with
      | ok b u => rw [hr] at htells; exact htells.elim
      | error e' u => rw [hr] at htells; exact .inr ⟨e, u, by rw [htells.1], mem_of_look_error hx⟩
    · rw [← h, ha] at hp
      exact .inl (hp.run rfl)

theorem canBegin_or_scan {id : RuleId} {b : Bool} {s : TokenStream}
    (hb : g.sight (.ok (shown (look 0 s.content).1)) id = .ok b) :
    (∃ u, (g.canBegin id).run s = .ok b u ∧ u.content = s.content) ∨
      ∃ e u, (g.canBegin id).run s = .error (.raised (.scan e)) u ∧ .error e ∈ s.content :=
  asks_or_scan (fun entry => g.sight entry id) (sees_canBegin g s.content id) (fun e => sightWithin_error g e _ id) hb

theorem firstMatch_or_scan {ids : List RuleId} {o : Option RuleId} {s : TokenStream}
    (ho : firstSight (g.sight (.ok (shown (look 0 s.content).1))) ids = .ok o) :
    (∃ u, (firstMatch g.canBegin ids).run s = .ok o u ∧ u.content = s.content) ∨
      ∃ e u, (firstMatch g.canBegin ids).run s = .error (.raised (.scan e)) u ∧ .error e ∈ s.content :=
  asks_or_scan (fun entry => firstSight (g.sight entry) ids) (sees_firstMatch (sees_canBegin g s.content) ids)
    (fun e => firstSight_error g.sight (fun x => sightWithin_error g e _ x) ids) ho

theorem shown_eq_front (s : TokenStream) : shown (look 0 s.content).1 = front s.tokens := by
  rw [tokens_eq_reached]
  rcases s.content with _ | ⟨_ | t, rest⟩ <;> rfl

/-- the alternative cannot begin with any token of these entries, nor at the end of input -/
def Never (g : Grammar) (c : RuleId) (xs : List Entry) : Prop :=
  ∀ t, t = Token.inputEnd ∨ .ok t ∈ xs → g.begins t c = some false

theorem Never.shown (hno : Never g c xs) {s : TokenStream} (hs : s.content <:+ xs) :
    g.sight (.ok (shown (look 0 s.content).1)) c = .ok false := by
  refine sight_token.2 (hno _ ?_)
  cases hc : s.content with
  | nil => exact .inl rfl
  | cons x rest =>
    cases x with
    | error e => exact .inl rfl
    | ok t => exact .inr (hs.subset (by rw [hc]; exact List.mem_cons_self))

/-- whatever is looked at, the answer about the alternative is no -/
theorem Never.sightWithin (hno : Never g c xs) {s : TokenStream} (hs : s.content <:+ xs) (k : Nat) (b : Bool)
    (hb : g.sightWithin (look 0 s.content).1 k c = .ok b) : b = false := by
  have h := sight_shown (sight_stable hb)
  rw [hno.shown hs] at h
  exact (Except.ok.inj h).symm

/-- a rule that is a choice parses what it chooses -/
theorem parseRule_choice {ids : List RuleId} (he : (g.rule r).elements = [.choice ids])
    (hbuild : (g.rule r).build = .collapse) (budget n : Nat) :
    g.parseRule budget (n + 1) r = (do
      match ← firstMatch g.canBegin ids with
      | some x => g.parseRule budget n x
      | none => fail (.unexpected (← peek) none)) := by
  rw [parseRule, parseInside, he, hbuild]
  simp only [parseElements, parseElement, Parsing.lift_self, bind_assoc, pure_bind]
  congr 1
  funext o
  cases o with
  | none =>
    funext s
    simp only [bind, EStateM.bind]
    cases peek s <;> rfl
  | some x => simp [Build.make]

end Looking

/-! ## Before and after -/

section Insertion

variable {xs : List Entry} {excused : ParseError → Prop} {g g' : Grammar} {r c : RuleId} (h : Inserted g g' r c)
  (hg : g.Closed) (hr : r < g.rules.size) (hc : c < g.rules.size) (hno : Never g c xs)

include h hg hr hc hno

/-- an answer after the insertion is one from before -/
theorem sight_echo {s : TokenStream} (hs : s.content <:+ xs) {x : RuleId} {b : Bool} (hx : x < g'.rules.size)
    (hb : g'.sight (look 0 s.content).1 x = .ok b) : g.sight (look 0 s.content).1 (g.original r x) = .ok b :=
  sight_stable (sight_before h hg hr hc (hno.sightWithin hs) _ hx hb)

/-- the alternative is passed over -/
theorem passed_over {s : TokenStream} (hs : s.content <:+ xs) {b : Bool}
    (hb : g'.sight (look 0 s.content).1 c = .ok b) : g'.sight (look 0 s.content).1 c = .ok false := by
  have hold := sight_echo h hg hr hc hno hs (hc.trans_le h.size_le) hb
  rw [original_of_lt hc] at hold
  rwa [hno.sightWithin hs _ _ hold] at hb

theorem canBegin_before {x : RuleId} (hx : x < g'.rules.size) :
    Echoes xs excused Eq (g'.canBegin x) (g.canBegin (g.original r x)) := by
  intro s s' hs hxs b u hrun
  obtain ⟨hb, hu⟩ := canBegin_ok hrun
  have hold := sight_echo h hg hr hc hno hxs hx hb
  rw [hs] at hold
  obtain ⟨u', hrun', hu'⟩ := canBegin_of_sight hold
  exact .inl ⟨b, u', hrun', rfl, by rw [hu, hu', hs], hu ▸ hxs⟩

/-- a choice after the insertion passes the alternative over -/
theorem firstMatch_before {ids : List RuleId} {β : Type} {V : Option RuleId → β → Prop} {q : Parsing β}
    (hq : Echoes xs excused V (firstMatch g'.canBegin ids) q) :
    Echoes xs excused V (firstMatch g'.canBegin (c :: ids)) q := by
  intro s s' hs hxs o u hrun
  rw [firstMatch] at hrun
  obtain ⟨b, mid, hmid, hrun⟩ := ok_of_bind hrun
  obtain ⟨hb, hcontent⟩ := canBegin_ok hmid
  have hfalse := passed_over h hg hr hc hno hxs hb
  rw [hb] at hfalse
  obtain rfl : b = false := Except.ok.inj hfalse
  exact hq mid s' (hcontent.trans hs) (hcontent ▸ hxs) o u hrun

/-- what was chosen between the alternative and another rule is the other rule -/
theorem chosen_of_two {s u : TokenStream} (hs : s.content <:+ xs) {x : RuleId} {o : Option RuleId}
    (hrun : (firstMatch g'.canBegin [c, x]).run s = .ok o u) :
    (o = some x ∨ o = none) ∧ u.content = s.content := by
  obtain ⟨ho, hu⟩ := (sees_firstMatch (sees_canBegin g' s.content) [c, x]).ok rfl hrun
  obtain ⟨b, hb⟩ := ok_of_firstSight_cons ho
  rw [firstSight_cons_false (passed_over h hg hr hc hno hs hb), firstSight] at ho
  refine ⟨?_, hu⟩
  revert ho
  rcases g'.sight (look 0 s.content).1 x with e | _ | _ <;> intro ho <;> cases ho
  · exact .inr rfl
  · exact .inl rfl

/-- a choice between the alternative and a rule parses what the rule parses -/
theorem previous_of_choice {x : RuleId} {budget n : Nat} (he : (g'.rule r).elements = [.choice [c, x]])
    (hbuild : (g'.rule r).build = .collapse) {p : Parsing Node}
    (hx : Echoes xs excused (SameTree id) (g'.parseRule budget n x) p) :
    Echoes xs excused (SameTree id) (g'.parseRule budget (n + 1) r) p := by
  intro s s' hs hxs a u hrun
  rw [parseRule_choice he hbuild] at hrun
  obtain ⟨o, mid, hmatch, hrun⟩ := ok_of_bind hrun
  obtain ⟨rfl | rfl, hcontent⟩ := chosen_of_two h hg hr hc hno hxs hmatch
  · exact hx mid s' (hcontent.trans hs) (hcontent ▸ hxs) a u hrun
  · exact absurd hrun (peek_fails _ _ _ _)

/-- **What a rule parses after the insertion it parsed before it.** -/
theorem parses_before (budget n : Nat) {m : Nat} (hm : n ≤ m) {x : RuleId} (hx : x < g'.rules.size) :
    Echoes xs excused (SameTree id) (g'.parseRule budget n x) (g.parseRule budget m (g.original r x)) := by
  have hK : Comparison (Echoes xs excused) := comparison_echoes
  induction n generalizing m x with
  | zero => exact echoes_of_fails (peek_fails _)
  | succ n ih =>
    obtain ⟨m, rfl⟩ : ∃ k, m = k + 1 := ⟨m - 1, by omega⟩
    have hm := Nat.le_of_succ_le_succ hm
    have hcalls : ∀ y < g.rules.size, Echoes xs excused (SameTree id) (g'.parseRule budget n y) (g.parseRule budget m y) := by
      intro y hy
      have hold := ih hm (hy.trans_le h.size_le)
      rwa [original_of_lt hy] at hold
    have hasks : ∀ y < g.rules.size, Echoes xs excused Eq (g'.canBegin y) (g.canBegin y) := by
      intro y hy
      have hold : Echoes xs excused Eq _ _ := canBegin_before h hg hr hc hno (hy.trans_le h.size_le)
      rwa [original_of_lt hy] at hold
    have hsame : ∀ y, ∀ e ∈ (g.rule y).elements, Echoes xs excused (SameTrees id)
        (g'.parseElement budget (g'.parseRule budget n) e) (g.parseElement budget (g.parseRule budget m) e) :=
      fun y e he => echoes_element (fun z hz => hasks z (hg.calls_lt he hz)) fun z hz => hcalls z (hg.calls_lt he hz)
    rcases eq_or_ne x r with rfl | hne
    · have hinserted := h
      rw [original_of_lt hr]
      cases h with
      | joined alternatives more he he' hbuild _ _ =>
        refine hK.parseRule hbuild ?_
        have hall := hsame x
        have hin : ∀ y ∈ alternatives, y < g.rules.size := fun y hy =>
          hg.calls_lt (e := .choice alternatives) (by rw [he]; exact List.mem_cons_self) hy
        rw [he] at hall
        rw [he, he']
        refine hK.parseElements_cons (hK.choice ?_ fun y hy => hcalls y (hin y hy))
          (hK.parseElements fun e he => hall e (List.mem_cons_of_mem _ he))
        exact firstMatch_before hinserted hg hr hc hno
          (hK.firstMatch (List.Subset.refl _) fun y hy => hasks y (hin y hy))
      | wrapped he' hbuild hsize _ _ =>
        have hold := ih (x := g.rules.size) (Nat.le_succ_of_le hm) (hsize ▸ Nat.lt_succ_self _)
        rw [original_size] at hold
        exact previous_of_choice hinserted hg hr hc hno he' hbuild hold
    · refine hK.parseRule (by rw [h.kept hx hne]) ?_
      rw [h.kept hx hne]
      exact hK.parseElements (hsame _)

end Insertion

/-- the errors of a rule that was fine before it got an alternative: a line of the stream that does not scan was looked
at, or the rule begins with what may be left out and could not begin with the token itself -/
def Excused (g : Grammar) (r : RuleId) (xs : List Entry) (e : ParseError) : Prop :=
  (∃ bad, e = .scan bad ∧ .error bad ∈ xs) ∨ (g.BeginsOptional r ∧ ∃ t, e = .unexpected t none ∧ g.begins t r = some false)

section After

variable {xs : List Entry} {g g' : Grammar} {r c : RuleId} (h : Inserted g g' r c) (hg : g.Closed)
  (hr : r < g.rules.size)
  (hno : ∀ s : TokenStream, s.content <:+ xs → g'.sight (.ok (shown (look 0 s.content).1)) c = .ok false)

include hno

/-- the alternative is passed over, or an error is met -/
theorem firstMatch_after {ids : List RuleId} {α : Type} {V : α → Option RuleId → Prop} {p : Parsing α}
    (hp : Echoes xs (Excused g r xs) V p (firstMatch g'.canBegin ids)) :
    Echoes xs (Excused g r xs) V p (firstMatch g'.canBegin (c :: ids)) := by
  intro s s' hs hxs a u hrun
  have hnew := hno s hxs
  rw [hs] at hnew
  rw [firstMatch, EStateM.run_bind]
  rcases canBegin_or_scan hnew with ⟨mid, hmid, hcontent⟩ | ⟨e, u', hmid, hbad⟩ <;> rw [hmid]
  · exact hp s mid (hs.trans hcontent.symm) hxs a u hrun
  · exact .inr ⟨_, u', rfl, .inl ⟨e, rfl, hxs.subset (hs ▸ hbad)⟩⟩

include h hg hr

theorem sight_shown_after {s : TokenStream} (hs : s.content <:+ xs) {x : RuleId} {b : Bool} (hx : x < g'.rules.size)
    (hb : g.sight (.ok (shown (look 0 s.content).1)) (g.original r x) = .ok b) :
    g'.sight (.ok (shown (look 0 s.content).1)) x = .ok b :=
  sight_stable (sight_after h hg hr (hno s hs) _ hx hb)

theorem canBegin_after {x : RuleId} (hx : x < g'.rules.size) :
    Echoes xs (Excused g r xs) Eq (g.canBegin (g.original r x)) (g'.canBegin x) := by
  intro s s' hs hxs b u hrun
  obtain ⟨hb, hu⟩ := canBegin_ok hrun
  have hnew := sight_shown_after h hg hr hno hxs hx (sight_shown hb)
  rw [hs] at hnew
  rcases canBegin_or_scan hnew with ⟨u', hrun', hu'⟩ | ⟨e, u', hrun', hbad⟩
  · exact .inl ⟨b, u', hrun', rfl, by rw [hu, hu', hs], hu ▸ hxs⟩
  · exact .inr ⟨_, u', hrun', .inl ⟨e, rfl, hxs.subset (hs ▸ hbad)⟩⟩

/-- What the rule parsed, the choice between the alternative and its old elements parses. But the choice looks first: it
refuses the rule where it could not begin with the next token. -/
theorem choice_of_previous {budget n m : Nat} (he : (g'.rule r).elements = [.choice [c, g.rules.size]])
    (hbuild : (g'.rule r).build = .collapse) (hsize : g'.rules.size = g.rules.size + 1)
    (hprevious : Echoes xs (Excused g r xs) (SameTree id) (g.parseRule budget n r)
      (g'.parseRule budget m g.rules.size)) :
    Echoes xs (Excused g r xs) (SameTree id) (g.parseRule budget n r) (g'.parseRule budget (m + 1) r) := by
  intro s s' hs hxs a u hrun
  obtain ⟨b, hb, hleft⟩ := (parseRule_derives hrun).1.answered
  rw [← shown_eq_front] at hb
  have hnew := sight_shown_after (x := g.rules.size) h hg hr hno hxs (hsize ▸ Nat.lt_succ_self _)
    (by rwa [original_size])
  have hchoice : firstSight (g'.sight (.ok (shown (look 0 s'.content).1))) [c, g.rules.size] =
      .ok (if b then some g.rules.size else none) := by
    rw [← hs, firstSight_cons_false (hno s hxs), firstSight, hnew]
    cases b <;> rfl
  rw [parseRule_choice he hbuild, EStateM.run_bind]
  rcases firstMatch_or_scan hchoice with ⟨mid, hmid, hcontent⟩ | ⟨e, u', hmid, hbad⟩ <;> rw [hmid]
  · cases b with
    | true => exact hprevious s mid (hs.trans hcontent.symm) hxs a u hrun
    | false =>
      -- the rule could not begin with the token, and the choice refuses it
      obtain ⟨u', hpeek, -⟩ := run_peek_content mid
      refine .inr ?_
      show ∃ e u', (do fail (.unexpected (← peek) none) : Parsing Node).run mid = .error (.raised e) u' ∧ _
      rw [EStateM.run_bind, hpeek]
      cases hx : (look 0 mid.content).1 with
      | error e => exact ⟨_, u', rfl, .inl ⟨e, rfl, hxs.subset (hs ▸ hcontent ▸ mem_of_look_error hx)⟩⟩
      | ok t =>
        refine ⟨_, u', rfl, .inr ⟨hleft rfl, t, rfl, sight_token.1 ?_⟩⟩
        rwa [hs, ← hcontent, hx] at hb
  · exact .inr ⟨_, u', rfl, .inl ⟨e, rfl, hxs.subset (hs ▸ hbad)⟩⟩

/-- **What a rule parsed before the insertion it parses after it**, in twice the room, or it is excused. -/
theorem parses_after (budget n : Nat) {m : Nat} (hm : 2 * n ≤ m) {x : RuleId} (hx : x < g'.rules.size) :
    Echoes xs (Excused g r xs) (SameTree id) (g.parseRule budget n (g.original r x)) (g'.parseRule budget m x) := by
  have hK : Comparison (Echoes xs (Excused g r xs)) := comparison_echoes
  induction n generalizing m x with
  | zero => exact echoes_of_fails (peek_fails _)
  | succ n ih =>
    have hcalls : ∀ {k}, 2 * n ≤ k → ∀ y < g.rules.size,
        Echoes xs (Excused g r xs) (SameTree id) (g.parseRule budget n y) (g'.parseRule budget k y) := by
      intro k hk y hy
      have hnew := ih hk (hy.trans_le h.size_le)
      rwa [original_of_lt hy] at hnew
    have hasks : ∀ y < g.rules.size, Echoes xs (Excused g r xs) Eq (g.canBegin y) (g'.canBegin y) := by
      intro y hy
      have hnew := canBegin_after h hg hr hno (hy.trans_le h.size_le)
      rwa [original_of_lt hy] at hnew
    have hsame : ∀ {k}, 2 * n ≤ k → ∀ y, ∀ e ∈ (g.rule y).elements, Echoes xs (Excused g r xs) (SameTrees id)
        (g.parseElement budget (g.parseRule budget n) e) (g'.parseElement budget (g'.parseRule budget k) e) :=
      fun hk y e he => echoes_element (fun z hz => hasks z (hg.calls_lt he hz)) fun z hz => hcalls hk z (hg.calls_lt he hz)
    have hkept : ∀ {k y}, 2 * n ≤ k → y < g'.rules.size → y ≠ r → Echoes xs (Excused g r xs) (SameTree id)
        (g.parseRule budget (n + 1) (g.original r y)) (g'.parseRule budget (k + 1) y) := by
      intro k y hk hy hne
      refine hK.parseRule (by rw [h.kept hy hne]) ?_
      rw [h.kept hy hne]
      exact hK.parseElements (hsame hk _)
    obtain ⟨m, rfl⟩ : ∃ k, m = k + 2 := ⟨m - 2, by omega⟩
    have hm : 2 * n ≤ m := by omega
    rcases eq_or_ne x r with rfl | hne
    · have hinserted := h
      rw [original_of_lt hr]
      cases h with
      | joined alternatives more he he' hbuild _ _ =>
        have hk : 2 * n ≤ m + 1 := Nat.le_succ_of_le hm
        refine hK.parseRule hbuild.symm ?_
        have hall := hsame hk x
        have hin : ∀ y ∈ alternatives, y < g.rules.size := fun y hy =>
          hg.calls_lt (e := .choice alternatives) (by rw [he]; exact List.mem_cons_self) hy
        rw [he] at hall
        rw [he, he']
        refine hK.parseElements_cons (hK.choice ?_ fun y hy => hcalls hk y (hin y hy))
          (hK.parseElements fun e he => hall e (List.mem_cons_of_mem _ he))
        exact firstMatch_after hno
          (hK.firstMatch (List.Subset.refl _) fun y hy => hasks y (hin y hy))
      | wrapped he' hbuild hsize _ _ =>
        have hprevious := hkept hm (hsize ▸ Nat.lt_succ_self _) hr.ne'
        rw [original_size] at hprevious
        exact choice_of_previous hinserted hg hr hno he' hbuild hsize hprevious
    · exact hkept (Nat.le_succ_of_le hm) hx hne

end After

/-! ## Late insertion -/

/-- **A late insertion keeps the existing alternatives.** Let an alternative `c` of a rule `r` begin with no token of a
stream, nor with the end of input. What any rule of the table parses from the stream after the insertion it parsed
before it: the same tree from the same tokens. What it parsed before it parses after the insertion, given room for the
choices that are new, or an error is met that the insertion excuses, as long as `c` does not look through `r`. -/
theorem insertion_keeps_alternatives {g : Grammar} {r c : RuleId} (hg : g.Closed) (hr : r < g.rules.size)
    (hc : c < g.rules.size) {s : TokenStream} (hno : Never g c s.content) (budget : Nat) {q : RuleId}
    (hq : q < g.rules.size) :
    (∀ n m u, ((g.withChoice r c).parseRule budget n q).run s = .ok m u →
      ∃ u', (g.parseRule budget n q).run s = .ok m u' ∧ u.content = u'.content) ∧
    (¬ g.LooksThrough c r → ∀ n m u, (g.parseRule budget n q).run s = .ok m u →
      (∃ u', ((g.withChoice r c).parseRule budget (2 * n) q).run s = .ok m u' ∧ u.content = u'.content) ∨
        ∃ e u', ((g.withChoice r c).parseRule budget (2 * n) q).run s = .error (.raised e) u' ∧
          Excused g r s.content e) := by
  have h := inserted_withChoice hr c
  have hq' := hq.trans_le h.size_le
  refine ⟨fun n m u hrun => ?_, fun hthrough n m u hrun => ?_⟩
  · have hecho : Echoes s.content (fun _ => False) (SameTree id) _ _ :=
      parses_before h hg hr hc hno budget n (Nat.le_refl n) hq'
    rw [original_of_lt hq] at hecho
    rcases hecho s s rfl (List.suffix_refl _) m u hrun with ⟨m', u', hrun', hm, hu, -⟩ | ⟨e, u', -, he⟩
    · exact ⟨u', by rw [hrun', hm.eq], hu⟩
    · exact he.elim
  · have hnew : ∀ u : TokenStream, u.content <:+ s.content →
        (g.withChoice r c).sight (.ok (shown (look 0 u.content).1)) c = .ok false := fun u hu =>
      sight_alternative h hg hr hc hthrough (hno.shown hu)
    have hecho := parses_after h hg hr hnew budget n (Nat.le_refl (2 * n)) hq'
    rw [original_of_lt hq] at hecho
    rcases hecho s s rfl (List.suffix_refl _) m u hrun with ⟨m', u', hrun', hm, hu, -⟩ | ⟨e, u', hrun', he⟩
    · exact .inl ⟨u', by rw [hrun', hm.eq], hu⟩
    · exact .inr ⟨e, u', hrun', he⟩

/-- words in a repetition, whose rule gets an alternative -/
theorem insertion_keeps_repetition :
    let g : Grammar := ⟨#[{ elements := [.literal ["a"] true] }, { elements := [.literal ["z"] true] },
      { elements := [.many 0] }]⟩
    let s := ofTokens [Token.identifier 1 "a", Token.identifier 2 "a"]
    let n : Node := .list .plain [.leaf .mark (Token.identifier 1 "a"), .leaf .mark (Token.identifier 2 "a")]
    (∃ u, (g.parseRule 3 3 2).run s = .ok n u ∧ [] = u.content) ∧
      ((∃ u, ((g.withChoice 0 1).parseRule 3 (2 * 3) 2).run s = .ok n u ∧ [] = u.content) ∨
        ∃ e u, ((g.withChoice 0 1).parseRule 3 (2 * 3) 2).run s = .error (.raised e) u ∧
          Excused g 0 s.content e) := by
  intro g s n
  have hno : Never g 1 s.content := by
    rintro t (rfl | ht)
    · rfl
    · simp only [s, content_ofTokens, List.map_cons, List.map_nil, List.mem_cons, Except.ok.injEq, List.not_mem_nil,
        or_false] at ht
      rcases ht with rfl | rfl <;> rfl
  have hthrough : ¬ g.LooksThrough 1 0 := by
    rintro (_ | ⟨he, hy, -⟩)
    obtain ⟨rfl, -⟩ := List.cons.inj (he : [Element.literal ["z"] true] = _)
    cases hy
  have hkeeps := insertion_keeps_alternatives (r := 0) (c := 1) (by decide : g.Closed) (by decide) (by decide) hno 3
    (q := 2) (by decide)
  exact ⟨hkeeps.1 3 n (ofTokens []) rfl, hkeeps.2 hthrough 3 n (ofTokens []) rfl⟩

/-- What an insertion may change. A rule that begins with an optional element is refused where only what comes after it
is there; an empty rule looks at a line that does not scan; and a rule that is looked through by its own alternative is
asked about for ever. -/
theorem insertion_changes :
    (let g : Grammar := ⟨#[{ elements := [.optional 1, .literal ["y"] false] }, { elements := [.literal ["x"] true] },
        { elements := [.literal ["z"] true] }]⟩
      let s := ofTokens [Token.identifier 1 "y"]
      Never g 2 s.content ∧ (g.parse 0).run s = .ok (.list .plain []) (ofTokens []) ∧
        ((g.withChoice 0 2).parse 0).run s = .error (.raised (.unexpected (Token.identifier 1 "y") none)) s) ∧
    (let g : Grammar := ⟨#[{}, { elements := [.literal ["z"] true] }]⟩
      let s : TokenStream := ⟨[], [.error (.badToken 1 1)]⟩
      Never g 1 s.content ∧ (g.parse 0).run s = .ok (.list .plain []) s ∧
        ((g.withChoice 0 1).parse 0).run s = .error (.raised (.scan (.badToken 1 1))) (ofTokens [])) ∧
    (let g : Grammar := ⟨#[{ elements := [.literal ["x"] true] }, { elements := [.rule 0] },
        { elements := [.optional 0] }]⟩
      let s := ofTokens [Token.identifier 1 "y"]
      Never g 1 s.content ∧ (g.parse 2).run s = .ok (.list .plain []) s ∧
        ((g.withChoice 0 1).parse 2).run s = .error .endless s) := by
  refine ⟨⟨?_, rfl, rfl⟩, ⟨?_, rfl, rfl⟩, ⟨?_, rfl, rfl⟩⟩
  · rintro t (rfl | ht)
    · rfl
    · obtain rfl : t = Token.identifier 1 "y" := by simpa using ht
      rfl
  · rintro t (rfl | ht)
    · rfl
    · simp [content, lineEntries] at ht
  · rintro t (rfl | ht)
    · rfl
    · obtain rfl : t = Token.identifier 1 "y" := by simpa using ht
      rfl

end Stone
