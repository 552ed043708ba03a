/-
Lookahead as a function of the next entry. What `canBegin` answers depends on the next token alone, or on the error that
stands in its place; `sight` computes the answer from it. Nothing is taken: only an error that is met is dropped.

A search for the first element that reads a token asks about rules, and a rule that it asks about again has no answer at
all. So every answer that any number of steps would give is found in as many steps as there are rules, and one: what one
more step adds is at least one rule, until a step adds nothing.

- `sees_canBegin`: `canBegin` gives what `sight` says and leaves the content alone.
- `canBegin_by_next`: on two streams with the same next entry it gives the same.
- `sight_stable`: more steps give no further answers.
-/
import Stone.Proofs.Content
import Stone.Proofs.Progress

namespace Stone

open TokenStream Parsing Grammar

namespace Grammar

/-! ## Answers -/

/-- the answer of an entry that is looked at: an error in the place of a token is the end of the question -/
def seen : Entry → Except (Stop ParseError) Token
  | .ok t => .ok t
  | .error e => .error (.raised (.scan e))

/-- the first of these rules that can begin -/
def firstSight (ask : RuleId → Except (Stop ParseError) Bool) : List RuleId → Except (Stop ParseError) (Option RuleId)
  | [] => .ok none
  | id :: more =>
    match ask id with
    | .ok true => .ok (some id)
    | .ok false => firstSight ask more
    | .error e => .error e

/-- can the element begin with this entry, where `ask` answers for rules -/
def elementSight (entry : Entry) (ask : RuleId → Except (Stop ParseError) Bool) :
    Element → Except (Stop ParseError) Bool
  | .rule id | .optional id | .many id | .operators id _ _ => ask id
  | .choice ids => (firstSight ask ids).map Option.isSome
  | .token cls _ => (seen entry).map cls.accepts
  | .literal texts _ => (seen entry).map fun t => texts.any t.isLiteral

/-- `sight` in at most so many steps -/
def sightWithin (g : Grammar) (entry : Entry) : Nat → RuleId → Except (Stop ParseError) Bool
  | 0, _ => .error .endless
  | steps + 1, id =>
    match (g.rule id).elements with
    | [] => .ok true
    | first :: _ => elementSight entry (sightWithin g entry steps) first

/-- can the rule begin with this entry -/
def sight (g : Grammar) (entry : Entry) (id : RuleId) : Except (Stop ParseError) Bool :=
  g.sightWithin entry (g.rules.size + 1) id

/-! ## What looking gives -/

/-- what a question about this content may end with -/
def Tells {α : Type} (c : List Entry) : Ending α → Except (Stop ParseError) α → Prop
  | .ok a s, .ok b => a = b ∧ s.content = c
  | .error e s, .error e' =>
    e = e' ∧ ((e = .endless ∧ s.content = c) ∨ ∃ bad, e = .raised (.scan bad) ∧ c = .error bad :: s.content)
  | _, _ => False

/-- what a run gives, without the stream that it leaves -/
def outcome {α : Type} : Ending α → Except (Stop ParseError) α
  | .ok a _ => .ok a
  | .error e _ => .error e

theorem Tells.outcome {α : Type} {c : List Entry} {r : Ending α} {answer : Except (Stop ParseError) α}
    (h : Tells c r answer) : Grammar.outcome r = answer := by
  cases r with
  | ok a s =>
    cases answer with
    | ok b => exact congrArg Except.ok h.1
    | error e => exact h.elim
  | error e s =>
    cases answer with
    | ok b => exact h.elim
    | error e' => exact congrArg Except.error h.1

/-- on every stream of this content the action gives this answer, and takes nothing -/
def Sees {α : Type} (c : List Entry) (p : Parsing α) (answer : Except (Stop ParseError) α) : Prop :=
  ∀ s : TokenStream, s.content = c → Tells c (p.run s) answer

section Looking

variable {α β : Type} {c : List Entry} {p : Parsing α} {f : α → Parsing β}

theorem Sees.pure (a : α) : Sees c (pure a : Parsing α) (.ok a) := fun _ hs => ⟨rfl, hs⟩

theorem Sees.endless : Sees c (throw .endless : Parsing α) (.error .endless) := fun _ hs => ⟨rfl, .inl ⟨rfl, hs⟩⟩

theorem Sees.bind {a : α} {answer : Except (Stop ParseError) β} (hp : Sees c p (.ok a)) (hf : Sees c (f a) answer) :
    Sees c (p >>= f) answer := by
  intro s hs
  have h := hp s hs
  rw [EStateM.run_bind]
  cases hr : p.run s with
  | error e s' => rw [hr] at h; exact h.elim
  | ok b s' =>
    rw [hr] at h
    obtain ⟨rfl, hc⟩ := h
    exact hf s' hc

theorem Sees.bind_error {e : Stop ParseError} (hp : Sees c p (.error e)) : Sees c (p >>= f) (.error e) := by
  intro s hs
  have h := hp s hs
  rw [EStateM.run_bind]
  cases hr : p.run s with
  | ok b s' => rw [hr] at h; exact h.elim
  | error e' s' => rw [hr] at h; exact h

/-- what the action gives is the answer -/
theorem Sees.ok {answer : Except (Stop ParseError) α} (hp : Sees c p answer) {s u : TokenStream} {a : α}
    (hs : s.content = c) (hr : p.run s = .ok a u) : answer = .ok a ∧ u.content = c := by
  have h := hp s hs
  rw [hr] at h
  cases answer with
  | error e => exact h.elim
  | ok b => exact ⟨by rw [h.1], h.2⟩

/-- an answer is given -/
theorem Sees.run {a : α} (hp : Sees c p (.ok a)) {s : TokenStream} (hs : s.content = c) :
    ∃ u, p.run s = .ok a u ∧ u.content = c := by
  have h := hp s hs
  cases hr : p.run s with
  | error e u => rw [hr] at h; exact h.elim
  | ok b u =>
    rw [hr] at h
    exact ⟨u, by rw [h.1], h.2⟩

/-- an action and then a function of what it gives -/
theorem Sees.map {answer : Except (Stop ParseError) α} (hp : Sees c p answer) (f : α → β) :
    Sees c (do return f (← p)) (answer.map f) := by
  cases answer with
  | ok a => exact hp.bind (.pure (f a))
  | error e => exact hp.bind_error

theorem sees_peek (c : List Entry) : Sees c peek (seen (look 0 c).1) := by
  intro s hs
  obtain ⟨s', hr, hc⟩ := run_peek_content s
  rw [hs] at hr hc
  rw [hr]
  rcases c with _ | ⟨e | t, rest⟩
  · exact ⟨rfl, hc⟩
  · refine ⟨rfl, .inr ⟨e, rfl, ?_⟩⟩
    rw [hc]
    rfl
  · exact ⟨rfl, hc⟩

theorem sees_firstMatch {begins : RuleId → Parsing Bool} {ask : RuleId → Except (Stop ParseError) Bool}
    (h : ∀ id, Sees c (begins id) (ask id)) (ids : List RuleId) :
    Sees c (firstMatch begins ids) (firstSight ask ids) := by
  induction ids with
  | nil => exact .pure none
  | cons id more ih =>
    have hid := h id
    rw [firstMatch, firstSight]
    cases ha : ask id with
    | error e => rw [ha] at hid; exact hid.bind_error
    | ok b =>
      rw [ha] at hid
      cases b with
      | true => exact hid.bind (.pure (some id))
      | false => exact hid.bind ih

theorem sees_canBeginWithin (g : Grammar) (c : List Entry) (steps : Nat) (id : RuleId) :
    Sees c (g.canBeginWithin steps id) (g.sightWithin (look 0 c).1 steps id) := by
  induction steps generalizing id with
  | zero => exact .endless
  | succ steps ih =>
    rw [canBeginWithin, sightWithin]
    cases (g.rule id).elements with
    | nil => exact .pure true
    | cons first more =>
      cases first with
      | rule id | optional id | many id | operators id table kind => exact ih id
      | choice ids => exact (sees_firstMatch ih ids).map Option.isSome
      | token cls kind => exact (sees_peek c).map cls.accepts
      | literal texts keep => exact (sees_peek c).map fun t => texts.any t.isLiteral

/-- **Looking is a function of the next entry**, and takes nothing. -/
theorem sees_canBegin (g : Grammar) (c : List Entry) (id : RuleId) : Sees c (g.canBegin id) (g.sight (look 0 c).1 id) :=
  sees_canBeginWithin g c _ id

/-- **Only the next entry counts**: on two streams with the same next token or error the answer is the same. -/
theorem canBegin_by_next (g : Grammar) (id : RuleId) {s s' : TokenStream} (h : (s.peek 0).1 = (s'.peek 0).1) :
    outcome ((g.canBegin id).run s) = outcome ((g.canBegin id).run s') := by
  have hnext : ∀ u : TokenStream, (u.peek 0).1 = (look 0 u.content).1 := fun u => by rw [← peek_content]
  rw [hnext, hnext] at h
  rw [(sees_canBegin g s.content id s rfl).outcome, (sees_canBegin g s'.content id s' rfl).outcome, h]

/-- looking takes nothing but an error that it answers -/
theorem canBegin_takes_nothing (g : Grammar) (id : RuleId) (s : TokenStream) :
    (Ending.left ((g.canBegin id).run s)).content = s.content ∨
      ∃ e, outcome ((g.canBegin id).run s) = .error (.raised (.scan e)) ∧
        s.content = .error e :: (Ending.left ((g.canBegin id).run s)).content := by
  have h := sees_canBegin g s.content id s rfl
  cases hr : (g.canBegin id).run s with
  | ok b s' =>
    rw [hr] at h
    cases ha : g.sight (look 0 s.content).1 id <;> rw [ha] at h
    · exact h.elim
    · exact .inl h.2
  | error e s' =>
    rw [hr] at h
    cases ha : g.sight (look 0 s.content).1 id <;> rw [ha] at h
    · obtain ⟨-, ⟨-, hc⟩ | ⟨bad, rfl, hc⟩⟩ := h
      · exact .inl hc
      · exact .inr ⟨bad, rfl, hc⟩
    · exact h.elim

end Looking

/-! ## Steps -/

section Steps

variable {g : Grammar} {entry : Entry} {ask ask' : RuleId → Except (Stop ParseError) Bool}

theorem firstSight_mono {ids : List RuleId} {o : Option RuleId}
    (h : ∀ id ∈ ids, ∀ b, ask id = .ok b → ask' id = .ok b) (ho : firstSight ask ids = .ok o) :
    firstSight ask' ids = .ok o := by
  induction ids with
  | nil => exact ho
  | cons id more ih =>
    have hmore := ih fun x hx => h x (List.mem_cons_of_mem _ hx)
    rw [firstSight] at ho ⊢
    cases ha : ask id with
    | error e => rw [ha] at ho; cases ho
    | ok b =>
      rw [ha] at ho
      rw [h id List.mem_cons_self b ha]
      cases b with
      | true => exact ho
      | false => exact hmore ho

theorem elementSight_mono {e : Element} {b : Bool}
    (h : ∀ id ∈ Language.calls e, ∀ b, ask id = .ok b → ask' id = .ok b) (hb : elementSight entry ask e = .ok b) :
    elementSight entry ask' e = .ok b := by
  cases e with
  | rule id | optional id | many id | operators id _ _ => exact h id List.mem_cons_self b hb
  | choice ids =>
    rw [elementSight] at hb ⊢
    cases ho : firstSight ask ids with
    | error e => rw [ho] at hb; cases hb
    | ok o =>
      rw [ho] at hb
      rwa [show firstSight ask' ids = .ok o from firstSight_mono h ho]
  | token cls kind | literal texts keep => exact hb

/-- an answer stays when the search may go on for longer -/
theorem sightWithin_mono {k m : Nat} {id : RuleId} {b : Bool} (h : g.sightWithin entry k id = .ok b) (hm : k ≤ m) :
    g.sightWithin entry m id = .ok b := by
  induction k generalizing m id b with
  | zero => cases h
  | succ k ih =>
    obtain ⟨m, rfl⟩ : ∃ j, m = j + 1 := ⟨m - 1, by omega⟩
    rw [sightWithin] at h ⊢
    cases he : (g.rule id).elements with
    | nil => rw [he] at h; exact h
    | cons first more =>
      rw [he] at h
      exact elementSight_mono (fun x _ b hx => ih hx (Nat.le_of_succ_le_succ hm)) h

theorem sightWithin_unique {k m : Nat} {id : RuleId} {b b' : Bool} (h : g.sightWithin entry k id = .ok b)
    (h' : g.sightWithin entry m id = .ok b') : b = b' := by
  have hk := sightWithin_mono h (Nat.le_max_left k m)
  rw [sightWithin_mono h' (Nat.le_max_right k m)] at hk
  exact (Except.ok.inj hk).symm

/-- one more step gives no further answers -/
def Settled (g : Grammar) (entry : Entry) (k : Nat) : Prop :=
  ∀ id b, g.sightWithin entry (k + 1) id = .ok b → g.sightWithin entry k id = .ok b

/-- a search that has nothing more to answer has nothing more to answer later -/
theorem Settled.le {k m : Nat} (h : Settled g entry k) {id : RuleId} {b : Bool}
    (hb : g.sightWithin entry m id = .ok b) : g.sightWithin entry k id = .ok b := by
  induction m generalizing id b with
  | zero => cases hb
  | succ m ih =>
    refine h id b ?_
    rw [sightWithin] at hb ⊢
    cases he : (g.rule id).elements with
    | nil => rw [he] at hb; exact hb
    | cons first more =>
      rw [he] at hb
      exact elementSight_mono (fun x _ b hx => ih hx) hb

/-- the rules that have an answer after so many steps -/
def answeredRules (g : Grammar) (entry : Entry) (k : Nat) : Finset RuleId :=
  (Finset.range g.rules.size).filter fun id => (g.sightWithin entry k id).toBool = true

theorem mem_answeredRules {k : Nat} {id : RuleId} :
    id ∈ answeredRules g entry k ↔ id < g.rules.size ∧ ∃ b, g.sightWithin entry k id = .ok b := by
  rw [answeredRules, Finset.mem_filter, Finset.mem_range]
  cases g.sightWithin entry k id <;> simp [Except.toBool]

/-- a place outside the table holds the empty rule, which can begin with anything -/
theorem sightWithin_outside (entry : Entry) {id : RuleId} (hid : g.rules.size ≤ id) (k : Nat) :
    g.sightWithin entry (k + 1) id = .ok true := by
  have hempty : (g.rule id).elements = [] := by
    rw [Grammar.rule, Array.getElem?_eq_none hid]
    rfl
  rw [sightWithin, hempty]

theorem answeredRules_ssubset {k : Nat} (h : ¬ Settled g entry (k + 1)) :
    answeredRules g entry (k + 1) ⊂ answeredRules g entry (k + 2) := by
  simp only [Settled, not_forall] at h
  obtain ⟨id, b, hb, hnew⟩ := h
  have hid : id < g.rules.size := by
    by_contra hout
    have hk := sightWithin_outside entry (Nat.le_of_not_lt hout) k
    exact hnew (by rw [hk, sightWithin_unique hk hb])
  rw [Finset.ssubset_iff_of_subset fun x hx => ?_]
  · refine ⟨id, mem_answeredRules.2 ⟨hid, b, hb⟩, fun hmem => ?_⟩
    obtain ⟨-, b', hb'⟩ := mem_answeredRules.1 hmem
    exact hnew (by rw [hb', sightWithin_unique hb' hb])
  · obtain ⟨hx, b, hb⟩ := mem_answeredRules.1 hx
    exact mem_answeredRules.2 ⟨hx, b, sightWithin_mono hb (Nat.le_succ _)⟩

/-- as long as steps add answers, each adds a rule -/
theorem settled_or_more (g : Grammar) (entry : Entry) (k : Nat) :
    Settled g entry (k + 1) ∨ k < (answeredRules g entry (k + 2)).card := by
  by_cases hs : Settled g entry (k + 1)
  · exact .inl hs
  refine .inr ?_
  have hmore := Finset.card_lt_card (answeredRules_ssubset hs)
  induction k with
  | zero => exact Nat.zero_lt_of_lt hmore
  | succ k ih =>
    have hearlier : ¬ Settled g entry (k + 1) := fun h =>
      hs fun id b hb => sightWithin_mono (h.le hb) (Nat.le_succ _)
    exact Nat.lt_of_le_of_lt (ih hearlier (Finset.card_lt_card (answeredRules_ssubset hearlier))) hmore

/-- **More steps give no further answers** than as many as there are rules, and one. -/
theorem sight_stable {k : Nat} {id : RuleId} {b : Bool} (h : g.sightWithin entry k id = .ok b) :
    g.sight entry id = .ok b := by
  rcases settled_or_more g entry g.rules.size with hs | hmore
  · exact hs.le h
  · have hle := (answeredRules g entry (g.rules.size + 2)).card_le_card (Finset.filter_subset _ _)
    rw [Finset.card_range] at hle
    exact absurd hmore (Nat.not_lt.2 hle)

end Steps

/-! ## What an answer depends on -/

section Entries

variable {g : Grammar}

/-- an answer, or a question without one -/
def ofAnswer {α : Type} : Option α → Except (Stop ParseError) α
  | some a => .ok a
  | none => .error .endless

theorem firstSight_ofAnswer (ask : RuleId → Option Bool) (ids : List RuleId) :
    firstSight (fun id => ofAnswer (ask id)) ids = ofAnswer (firstThat ask ids) := by
  induction ids with
  | nil => rfl
  | cons id more ih =>
    rw [firstSight, firstThat]
    cases ask id with
    | none => rfl
    | some b =>
      cases b with
      | true => rfl
      | false => exact ih

/-- on a token this is `begins` -/
theorem sightWithin_token (g : Grammar) (t : Token) (k : Nat) :
    g.sightWithin (.ok t) k = fun id => ofAnswer (g.beginsWithin t k id) := by
  induction k with
  | zero => rfl
  | succ k ih =>
    funext id
    rw [sightWithin, beginsWithin, ih]
    cases (g.rule id).elements with
    | nil => rfl
    | cons first more =>
      cases first with
      | rule id | optional id | many id | operators id table kind => rfl
      | choice ids =>
        simp only [elementSight, elementBegins, firstSight_ofAnswer]
        cases firstThat (g.beginsWithin t k) ids <;> rfl
      | token cls kind | literal texts keep => rfl

theorem sight_token {t : Token} {id : RuleId} {b : Bool} : g.sight (.ok t) id = .ok b ↔ g.begins t id = some b := by
  rw [sight, sightWithin_token, begins]
  show ofAnswer (g.beginsWithin t (g.rules.size + 1) id) = .ok b ↔ _
  cases g.beginsWithin t (g.rules.size + 1) id <;> simp [ofAnswer]

theorem firstSight_error {e : ScanError} (ask : Entry → RuleId → Except (Stop ParseError) Bool)
    (h : ∀ id, ask (.error e) id = .error (.raised (.scan e)) ∨ ∀ t, ask (.ok t) id = ask (.error e) id)
    (ids : List RuleId) :
    firstSight (ask (.error e)) ids = .error (.raised (.scan e)) ∨
      ∀ t, firstSight (ask (.ok t)) ids = firstSight (ask (.error e)) ids := by
  induction ids with
  | nil => exact .inr fun _ => rfl
  | cons id more ih =>
    simp only [firstSight]
    rcases h id with hid | hid
    · exact .inl (by rw [hid])
    · simp only [hid]
      cases ask (.error e) id with
      | error e' => exact .inr fun _ => rfl
      | ok b =>
        cases b with
        | true => exact .inr fun _ => rfl
        | false => exact ih

/-- an error in the place of a token is the answer, unless there is one answer for everything -/
theorem sightWithin_error (g : Grammar) (e : ScanError) (k : Nat) (id : RuleId) :
    g.sightWithin (.error e) k id = .error (.raised (.scan e)) ∨
      ∀ t, g.sightWithin (.ok t) k id = g.sightWithin (.error e) k id := by
  induction k generalizing id with
  | zero => exact .inr fun _ => rfl
  | succ k ih =>
    simp only [sightWithin]
    cases (g.rule id).elements with
    | nil => exact .inr fun _ => rfl
    | cons first more =>
      cases first with
      | rule id | optional id | many id | operators id table kind => exact ih id
      | choice ids =>
        simp only [elementSight]
        rcases firstSight_error (fun entry => g.sightWithin entry k) ih ids with h | h
        · exact .inl (by rw [h]; rfl)
        · exact .inr fun t => by rw [h t]
      | token cls kind | literal texts keep => exact .inl rfl

end Entries

end Grammar

end Stone
