/-
One token of lookahead. What a task has read it reads again before any other tokens, if the first of these is the same,
or if it is one that leaves the task alone. Which tokens do that is said by a class (`Calm`) for every rule and every
element of the language.

- `Derives.takes_token`: every rule that is not empty takes a token.
- `Derives.followed`: the tokens that were read, before other tokens.
- `Refuses.followed`: a refusal depends on the tokens up to the refused one.
-/
import Stone.Proofs.Closing
import Stone.Proofs.Refusal

namespace Stone

open TokenStream Parsing Grammar

/-! ## Classes of tokens -/

/-- what the token after a task may be, if the task is to end there; each class has the tokens of those before it -/
inductive Calm where
  /-- no token -/
  | never
  /-- a closed token that ends no statement -/
  | ending
  /-- a token that no expression begins with -/
  | closed
  /-- a token that goes on with nothing that an expression could end with -/
  | quiet
  | any
deriving DecidableEq

namespace Calm

open Stone.Language

def rank : Calm → Nat
  | never => 0
  | ending => 1
  | closed => 2
  | quiet => 3
  | any => 4

/-- the smaller of two classes -/
def min (c d : Calm) : Calm := if c.rank ≤ d.rank then c else d

/-- does the second class have the tokens of the first -/
def within (c d : Calm) : Bool := c.rank ≤ d.rank

/-- is the token in the class, at a level of the language -/
def has (l : Level) (t : Token) : Calm → Bool
  | never => false
  | ending => !opens l t && !([";", Token.lineEndText].any t.isLiteral)
  | closed => !opens l t
  | quiet => (operatorOf .standard t).isNone && !t.isLiteral "(" && !t.isLiteral "," && !t.isLiteral "else"
  | any => true

variable {l : Level} {t : Token} {c d e : Calm}

theorem has_closed : closed.has l t = true ↔ opens l t = false := by simp [has]

theorem has_quiet : quiet.has l t = true ↔ Quiet t := by
  simp only [has, Bool.and_eq_true, Bool.not_eq_true', Option.isNone_iff_eq_none]
  exact ⟨fun ⟨⟨⟨ho, hc⟩, hm⟩, he⟩ => ⟨ho, hc, hm, he⟩, fun h => ⟨⟨⟨h.operator, h.call⟩, h.comma⟩, h.otherwise⟩⟩

theorem within_refl (c : Calm) : c.within c = true := by simp [within]

theorem never_within (c : Calm) : never.within c = true := by simp [within, rank]

theorem has_of_within (h : c.within d = true) (ht : c.has l t = true) : d.has l t = true := by
  have hclosed : ending.has l t = true → closed.has l t = true := fun h => (Bool.and_eq_true_iff.1 h).1
  have hquiet : closed.has l t = true → quiet.has l t = true := fun h => has_quiet.2 (quiet_of_closed (has_closed.1 h))
  cases d with
  | any => rfl
  | quiet =>
    cases c with
    | never => cases ht
    | ending => exact hquiet (hclosed ht)
    | closed => exact hquiet ht
    | quiet => exact ht
    | any => exact absurd h (by decide)
  | closed =>
    cases c with
    | never => cases ht
    | ending => exact hclosed ht
    | closed => exact ht
    | _ => exact absurd h (by decide)
  | ending =>
    cases c with
    | never => cases ht
    | ending => exact ht
    | _ => exact absurd h (by decide)
  | never =>
    cases c with
    | never => exact ht
    | _ => exact absurd h (by decide)

theorem min_within_left (c d : Calm) : (c.min d).within c = true := by
  cases c <;> cases d <;> rfl

theorem min_within_right (c d : Calm) : (c.min d).within d = true := by
  cases c <;> cases d <;> rfl

end Calm

namespace Language

/-! ## What leaves a rule alone -/

/-- the tokens that leave a rule alone when they come after it -/
def calmAfter : RuleId → Calm
  | Place.statement | Place.following | Place.simple => .closed
  | Place.program => .any
  | _ => .quiet

/-- has the rule no elements -/
def isEmptyRule (l : Level) (id : RuleId) : Bool := (elementsAt l id).isEmpty

/-- rules that begin with no closed token -/
def opening : List RuleId := [Place.params, Place.arguments, Place.definition, Place.statement]

/-- the tokens that leave out an optional rule -/
def calmBefore : RuleId → Calm
  | Place.statement | Place.arguments => .closed
  | Place.following => .ending
  | Place.call | Place.moreParams | Place.moreArguments | Place.otherwise => .quiet
  | _ => .never

/-- the tokens that leave an element alone. An empty alternative is chosen again only if no other one begins. -/
def calmAfterElement (l : Level) : Element → Calm
  | .rule id => calmAfter id
  | .choice ids =>
    if ids.any (isEmptyRule l) then
      if ids.all fun id => isEmptyRule l id || opening.contains id then .closed else .never
    else (ids.map calmAfter).foldr Calm.min .any
  | .optional id | .many id => (calmBefore id).min (calmAfter id)
  | .token _ _ | .literal _ _ => .any
  | .operators id table _ => if table = .standard then (calmAfter id).min .quiet else .never

/-- does the element take a token in any case, itself or by the rules that it calls -/
def isSolid (l : Level) : Element → Bool
  | .token _ _ | .literal _ _ => true
  | .rule id | .operators id _ _ => !isEmptyRule l id
  | .choice ids => ids.all fun id => !isEmptyRule l id
  | .optional _ | .many _ => false

/-- after the last element that takes a token in any case, whatever is in the class leaves the elements alone -/
def isOrderly (l : Level) (c : Calm) : List Element → Bool
  | [] => true
  | e :: es => (es.any (isSolid l) || c.within (calmAfterElement l e)) && isOrderly l c es

/-- a fact about the rules of all places -/
theorem forall_places {P : RuleId → Prop} (hin : ∀ id < 28, P id) (hout : ∀ k, P (k + 28)) (id : RuleId) : P id := by
  rcases Nat.lt_or_ge id 28 with hid | hid
  · exact hin id hid
  · obtain ⟨k, rfl⟩ := Nat.exists_eq_add_of_le' hid
    exact hout k

theorem orderly_rule (l : Level) : ∀ id, isOrderly l (calmAfter id) (elementsAt l id) = true :=
  forall_places (by cases l <;> decide +kernel) fun _ => rfl

theorem solid_rule (l : Level) : ∀ id, isEmptyRule l id = true ∨ (elementsAt l id).any (isSolid l) = true :=
  forall_places (by cases l <;> decide +kernel) fun _ => .inl rfl

end Language

open Stone.Language

/-- the class leaves the task alone -/
def Task.Orderly (l : Level) (c : Calm) : Task → Prop
  | rule id => c.within (calmAfter id) = true
  | element e => c.within (calmAfterElement l e) = true
  | elements es => isOrderly l c es = true
  | many id => c.within (calmAfterElement l (.many id)) = true
  | climb id table kind _ _ => c.within (calmAfterElement l (.operators id table kind)) = true

theorem Task.orderly_never (l : Level) (task : Task) : task.Orderly l .never := by
  cases task with
  | elements es =>
    induction es with
    | nil => rfl
    | cons e es ih => simp only [Orderly, isOrderly, Calm.never_within, Bool.or_true, Bool.true_and]; exact ih
  | _ => exact Calm.never_within _

/-! ## Tokens taken -/

/-- the task takes a token in any case -/
def Task.Solid (l : Level) : Task → Prop
  | rule id => isEmptyRule l id = false
  | element e => isSolid l e = true
  | elements es => es.any (isSolid l) = true
  | _ => False

/-- **Rules take tokens.** Every rule that is not empty takes one. -/
theorem Derives.takes_token {l : Level} {n : Nat} {task : Task} {ts rest : List Token} {ns : List Node}
    (h : Derives l.grammar n task ts ns rest) (hs : task.Solid l) : rest.length < ts.length := by
  induction h with
  | @rule _ id _ _ _ _ ih =>
    refine ih ?_
    rw [elements_eq]
    exact (solid_rule l id).resolve_left (by rw [hs]; exact Bool.false_ne_true)
  | nil => cases hs
  | @cons _ e es _ _ _ _ _ h1 h2 ih1 ih2 =>
    have hle1 := h1.suffix.length_le
    have hle2 := h2.suffix.length_le
    simp only [Task.Solid, List.any_cons, Bool.or_eq_true] at hs
    rcases hs with he | hes
    · have := ih1 he
      omega
    · have := ih2 hes
      omega
  | @call _ id _ _ _ _ ih => exact ih (by simpa [Task.Solid, isSolid] using hs)
  | @choice _ ids id _ _ _ hc _ ih =>
    have hid := List.all_eq_true.1 hs id (mem_of_firstThat hc).1
    exact ih (by simpa [Task.Solid] using hid)
  | @chain _ id _ _ _ _ _ _ _ _ h2 ih1 _ =>
    have hle := h2.suffix.length_le
    have := ih1 (by simpa [Task.Solid, isSolid] using hs)
    omega
  | token _ => exact Nat.lt_succ_self _
  | literal _ => exact Nat.lt_succ_self _
  | _ => cases hs

/-- a rule gives one tree -/
theorem Derives.rule_one {g : Grammar} {n : Nat} {id : RuleId} {ts rest : List Token} {ns : List Node}
    (h : Derives g n (.rule id) ts ns rest) : ∃ m, ns = [m] := by
  cases h
  exact ⟨_, rfl⟩

/-! ## Calm tokens -/

section Calm

variable {l : Level} {t : Token} {id : RuleId}

theorem begins_calm (h : (calmBefore id).has l t = true) :
    isEmptyRule l id = false ∧ l.grammar.begins t id = some false := by
  unfold calmBefore at h
  split at h
  · exact ⟨rfl, (closed_skips (Calm.has_closed.1 h)).1⟩
  · exact ⟨rfl, (closed_skips (Calm.has_closed.1 h)).2⟩
  · have hsep := (Bool.and_eq_true_iff.1 h).2
    rw [Bool.not_eq_true'] at hsep
    exact ⟨rfl, by rw [begins_following, hsep]⟩
  · exact ⟨rfl, (quiet_skips (Calm.has_quiet.1 h)).1⟩
  · exact ⟨rfl, (quiet_skips (Calm.has_quiet.1 h)).2.1⟩
  · exact ⟨rfl, (quiet_skips (Calm.has_quiet.1 h)).2.2.1⟩
  · exact ⟨rfl, (quiet_skips (Calm.has_quiet.1 h)).2.2.2⟩
  · cases h

theorem operators_calm {table : OperatorTable} {kind : ListKind}
    (h : (calmAfterElement l (.operators id table kind)).has l t = true) :
    (calmAfter id).has l t = true ∧ operatorOf table t = none := by
  simp only [calmAfterElement] at h
  split at h
  · rename_i htable
    subst htable
    exact ⟨Calm.has_of_within (Calm.min_within_left _ _) h,
      (Calm.has_quiet.1 (Calm.has_of_within (Calm.min_within_right _ _) h)).operator⟩
  · cases h

theorem not_def_of_closed (h : opens l t = false) : t.isLiteral "def" = false := by
  cases hd : t.isLiteral "def" with
  | false => rfl
  | true =>
    obtain ⟨line, x⟩ := t
    cases x <;> simp [Token.isLiteral, Token.lineEndText] at hd
    subst hd
    cases l <;> cases h

theorem begins_opening (hid : id ∈ opening) (h : opens l t = false) : l.grammar.begins t id = some false := by
  simp only [opening, List.mem_cons, List.not_mem_nil, or_false] at hid
  have hreserved : (TokenClass.identifier (reservedTexts l)).accepts t = false := by
    obtain ⟨line, x⟩ := t
    cases x <;> first | rfl | exact h
  rcases hid with rfl | rfl | rfl | rfl
  · rw [begins_params, hreserved]
  · exact (closed_skips h).2
  · rw [begins_first l t (rfl : elementsAt l Place.definition = _ :: _)]
    simp [not_def_of_closed h]
  · exact (closed_skips h).1

theorem begins_emptyRule (h : isEmptyRule l id = true) : l.grammar.begins t id = some true := by
  rw [begins_eq, begins_nothing ((elements_eq l id).trans (List.isEmpty_iff.1 h))]

/-- an empty alternative that one token chooses, a closed one chooses as well -/
theorem chosen_closed {u : Token} {ids : List RuleId} (hc : l.grammar.chosen u ids = some (some id))
    (hid : isEmptyRule l id = true) (hids : ∀ id ∈ ids, isEmptyRule l id = true ∨ id ∈ opening)
    (ht : opens l t = false) : l.grammar.chosen t ids = some (some id) := by
  induction ids with
  | nil => cases hc
  | cons first more ih =>
    obtain ⟨hfirst, hmore⟩ := List.forall_mem_cons.1 hids
    rw [chosen] at hc ⊢
    rcases Bool.eq_false_or_eq_true (isEmptyRule l first) with he | he
    · rw [firstThat_cons (begins_emptyRule he)] at hc ⊢
      exact hc
    · rw [firstThat_cons (begins_opening (hfirst.resolve_left (by rw [he]; exact Bool.false_ne_true)) ht)]
      refine ih ?_ hmore
      obtain ⟨b, hb⟩ := begins_answered l u first
      rw [firstThat_cons hb] at hc
      cases b with
      | false => exact hc
      | true =>
        cases hc
        rw [hid] at he
        cases he

/-- a token that leaves a choice alone leaves its alternatives alone -/
theorem choice_calm {ids : List RuleId} (hid : id ∈ ids) (h : (calmAfterElement l (.choice ids)).has l t = true) :
    (calmAfter id).has l t = true := by
  have hmin : ∀ ids : List RuleId, id ∈ ids → ((ids.map calmAfter).foldr Calm.min .any).has l t = true →
      (calmAfter id).has l t = true := by
    intro ids hid h
    induction ids with
    | nil => cases hid
    | cons first more ih =>
      rw [List.map_cons, List.foldr_cons] at h
      rcases List.mem_cons.1 hid with rfl | hid
      · exact Calm.has_of_within (Calm.min_within_left _ _) h
      · exact ih hid (Calm.has_of_within (Calm.min_within_right _ _) h)
  simp only [calmAfterElement] at h
  split at h
  · split at h
    · refine Calm.has_of_within ?_ h
      unfold calmAfter
      split <;> rfl
    · cases h
  · exact hmin ids hid h

/-- a token that leaves a choice with an empty alternative alone is closed -/
theorem choice_empty_calm {ids : List RuleId} (hid : id ∈ ids) (he : isEmptyRule l id = true)
    (h : (calmAfterElement l (.choice ids)).has l t = true) :
    opens l t = false ∧ ∀ id ∈ ids, isEmptyRule l id = true ∨ id ∈ opening := by
  simp only [calmAfterElement, List.any_eq_true.2 ⟨id, hid, he⟩, if_true] at h
  split at h
  · rename_i hall
    refine ⟨Calm.has_closed.1 h, fun id hid => ?_⟩
    simpa using List.all_eq_true.1 hall id hid
  · cases h

/-- an optional rule that was begun is begun again -/
theorem front_begun {n : Nat} {b mid tail : List Token} {ns : List Node}
    (h : Derives l.grammar n (.rule id) (b ++ mid) ns mid)
    (ht : front tail = front mid ∨ (calmBefore id).has l (front tail) = true) :
    front (b ++ tail) = front (b ++ mid) := by
  cases b with
  | cons t b => rfl
  | nil =>
    rcases ht with ht | ht
    · exact ht
    · exact absurd (h.takes_token (begins_calm ht).1) (Nat.lt_irrefl _)

/-- an optional rule that was not begun is not begun later -/
theorem begins_next {ts tail : List Token} (hb : l.grammar.begins (front ts) id = some false)
    (ht : front tail = front ts ∨ (calmBefore id).has l (front tail) = true) :
    l.grammar.begins (front tail) id = some false := by
  rcases ht with ht | ht
  · rwa [ht]
  · exact (begins_calm ht).2

/-- an alternative that was chosen is chosen again -/
theorem chosen_next {n : Nat} {b mid tail : List Token} {ns : List Node} {ids : List RuleId}
    (hc : l.grammar.chosen (front (b ++ mid)) ids = some (some id)) (h : Derives l.grammar n (.rule id) (b ++ mid) ns mid)
    (ht : front tail = front mid ∨ (calmAfterElement l (.choice ids)).has l (front tail) = true) :
    l.grammar.chosen (front (b ++ tail)) ids = some (some id) := by
  cases b with
  | cons t b => exact hc
  | nil =>
    rcases ht with ht | ht
    · rwa [List.nil_append, ht]
    · -- nothing was taken, so the alternative is empty
      have hempty : isEmptyRule l id = true := by
        rcases Bool.eq_false_or_eq_true (isEmptyRule l id) with he | he
        · exact he
        · exact absurd (h.takes_token he) (Nat.lt_irrefl _)
      obtain ⟨hclosed, hids⟩ := choice_empty_calm (mem_of_firstThat hc).1 hempty ht
      exact chosen_closed hc hempty hids hclosed

end Calm

/-! ## Other tokens afterwards -/

/-- other tokens that come next are as good as the ones that came next, also with some tokens before both -/
theorem front_next {l : Level} {c : Calm} {rest tail : List Token} (b : List Token)
    (h : front tail = front rest ∨ c.has l (front tail) = true) :
    front (b ++ tail) = front (b ++ rest) ∨ c.has l (front (b ++ tail)) = true := by
  cases b with
  | nil => exact h
  | cons t b => exact .inl rfl

theorem unended_append {ts us : List Token} (ht : Unended ts) (hu : Unended us) : Unended (ts ++ us) :=
  fun t h => (List.mem_append.1 h).elim (ht t) (hu t)

theorem unended_cons {t : Token} {ts : List Token} (ht : t.isInputEnd = false) (hts : Unended ts) :
    Unended (t :: ts) :=
  List.forall_mem_cons.2 ⟨ht, hts⟩

theorem not_inputEnd_of_accepts {cls : TokenClass} {t : Token} (h : cls.accepts t = true) : t.isInputEnd = false := by
  obtain ⟨line, x⟩ := t
  cases x with
  | inputEnd => cases cls <;> cases h
  | _ => rfl

theorem not_inputEnd_of_literal {texts : List String} {t : Token} (h : texts.any t.isLiteral = true) :
    t.isInputEnd = false := by
  obtain ⟨line, x⟩ := t
  cases x with
  | inputEnd => simp [Token.isLiteral] at h
  | _ => rfl

theorem not_inputEnd_of_operator {table : OperatorTable} {t : Token} {p : Precedence}
    (h : operatorOf table t = some p) : t.isInputEnd = false := by
  obtain ⟨line, x⟩ := t
  cases x with
  | inputEnd => cases h
  | _ => rfl

/-- the tokens that a task reads from `ts`, before `rest`: it reads them as well before other tokens, if the next one is
the same or leaves the task alone -/
def Stays (l : Level) (c : Calm) (n : Nat) (task : Task) (ts : List Token) (ns : List Node) (rest : List Token) : Prop :=
  ∃ before, ts = before ++ rest ∧ Unended before ∧
    ∀ tail, front tail = front rest ∨ c.has l (front tail) = true → Derives l.grammar n task (before ++ tail) ns tail

/-- **What has been read stays read**, whatever comes after it, if the next token is the same or leaves the task alone.
-/
theorem Derives.followed {l : Level} {n : Nat} {task : Task} {ts rest : List Token} {ns : List Node}
    (h : Derives l.grammar n task ts ns rest) {c : Calm} (hc : task.Orderly l c) : Stays l c n task ts ns rest := by
  induction h generalizing c with
  | @rule n id ts rest ns h ih =>
    have horderly := orderly_rule l id
    rw [← elements_eq] at horderly
    obtain ⟨b, hts, hb, hd⟩ := ih horderly
    exact ⟨b, hts, hb, fun tail ht => .rule (hd tail (ht.imp_right (Calm.has_of_within hc)))⟩
  | nil => exact ⟨[], rfl, nofun, fun _ _ => .nil⟩
  | @cons n e es ts mid rest ns ms h1 h2 ih1 ih2 =>
    simp only [Task.Orderly, isOrderly, Bool.and_eq_true, Bool.or_eq_true] at hc
    obtain ⟨he, hes⟩ := hc
    obtain ⟨b2, rfl, hb2, hd2⟩ := ih2 hes
    -- elements that take a token stand between the element and what comes next
    by_cases hsolid : es.any (isSolid l) = true
    · have hne : b2 ≠ [] := by
        rintro rfl
        exact absurd (h2.takes_token hsolid) (Nat.lt_irrefl _)
      obtain ⟨b1, rfl, hb1, hd1⟩ := ih1 (Task.orderly_never l (.element e))
      refine ⟨b1 ++ b2, by rw [List.append_assoc], unended_append hb1 hb2, fun tail ht => ?_⟩
      rw [List.append_assoc]
      refine .cons (hd1 _ (.inl ?_)) (hd2 tail ht)
      rw [front_append (.inl hne), front_append (.inl hne)]
    · obtain ⟨b1, rfl, hb1, hd1⟩ := ih1 (he.resolve_left hsolid)
      refine ⟨b1 ++ b2, by rw [List.append_assoc], unended_append hb1 hb2, fun tail ht => ?_⟩
      rw [List.append_assoc]
      exact .cons (hd1 _ (front_next b2 ht)) (hd2 tail ht)
  | call _ ih =>
    obtain ⟨b, hts, hb, hd⟩ := ih hc
    exact ⟨b, hts, hb, fun tail ht => .call (hd tail ht)⟩
  | @choice n ids id ts rest ns hch h ih =>
    obtain ⟨b, rfl, hb, hd⟩ := ih (Calm.within_refl _)
    refine ⟨b, rfl, hb, fun tail ht => ?_⟩
    have hnext := ht.imp_right (Calm.has_of_within hc)
    exact .choice (chosen_next hch h hnext) (hd tail (hnext.imp_right (choice_calm (mem_of_firstThat hch).1)))
  | @skipped n id ts hbe =>
    refine ⟨[], rfl, nofun, fun tail ht => .skipped (begins_next hbe (ht.imp_right fun h => ?_))⟩
    exact Calm.has_of_within (Calm.min_within_left _ _) (Calm.has_of_within hc h)
  | @taken n id ts rest m hbe h ih =>
    obtain ⟨b, rfl, hb, hd⟩ := ih (Calm.within_refl _)
    refine ⟨b, rfl, hb, fun tail ht => ?_⟩
    have hnext := ht.imp_right (Calm.has_of_within hc)
    refine .taken ?_ (hd tail (hnext.imp_right (Calm.has_of_within (Calm.min_within_right _ _))))
    rwa [front_begun h (hnext.imp_right (Calm.has_of_within (Calm.min_within_left _ _)))]
  | repetition _ ih =>
    obtain ⟨b, hts, hb, hd⟩ := ih hc
    exact ⟨b, hts, hb, fun tail ht => .repetition (hd tail ht)⟩
  | @manyNil n id ts hbe =>
    refine ⟨[], rfl, nofun, fun tail ht => .manyNil (begins_next hbe (ht.imp_right fun h => ?_))⟩
    exact Calm.has_of_within (Calm.min_within_left _ _) (Calm.has_of_within hc h)
  | @manyCons n id ts mid rest m ns hbe h1 h2 ih1 ih2 =>
    obtain ⟨b2, rfl, hb2, hd2⟩ := ih2 hc
    obtain ⟨b1, rfl, hb1, hd1⟩ := ih1 (Calm.within_refl _)
    refine ⟨b1 ++ b2, by rw [List.append_assoc], unended_append hb1 hb2, fun tail ht => ?_⟩
    have hnext := (front_next b2 ht).imp_right fun h => Calm.has_of_within hc h
    rw [List.append_assoc]
    refine .manyCons ?_ (hd1 _ ?_) (hd2 tail ht)
    · rwa [front_begun h1 (hnext.imp_right (Calm.has_of_within (Calm.min_within_left _ _)))]
    · exact hnext.imp_right (Calm.has_of_within (Calm.min_within_right _ _))
  | @token _ _ _ t _ ha => exact ⟨[t], rfl, unended_cons (not_inputEnd_of_accepts ha) nofun, fun _ _ => .token ha⟩
  | @literal _ _ _ t _ ha => exact ⟨[t], rfl, unended_cons (not_inputEnd_of_literal ha) nofun, fun _ _ => .literal ha⟩
  | @chain n id table kind ts mid rest first ns h1 h2 ih1 ih2 =>
    obtain ⟨b2, rfl, hb2, hd2⟩ := ih2 hc
    obtain ⟨b1, rfl, hb1, hd1⟩ := ih1 (Calm.within_refl _)
    refine ⟨b1 ++ b2, by rw [List.append_assoc], unended_append hb1 hb2, fun tail ht => ?_⟩
    rw [List.append_assoc]
    exact .chain (hd1 _ ((front_next b2 ht).imp_right fun h => (operators_calm (Calm.has_of_within hc h)).1))
      (hd2 tail ht)
  | @climbStop n id table kind waiting left ts hs =>
    refine ⟨[], rfl, nofun, fun tail ht => ?_⟩
    rcases ht with ht | ht
    · exact .climbStop fun p hp => hs p (by rwa [List.nil_append, ht] at hp)
    · exact climb_stops (operators_calm (Calm.has_of_within hc ht)).2
  | @climbStep n id table kind waiting left first right op ts mid after rest ns p ho hy h1 h2 h3 ih1 ih2 ih3 =>
    obtain ⟨b3, rfl, hb3, hd3⟩ := ih3 hc
    obtain ⟨b2, rfl, hb2, hd2⟩ := ih2 hc
    obtain ⟨b1, rfl, hb1, hd1⟩ := ih1 (Calm.within_refl _)
    refine ⟨op :: (b1 ++ (b2 ++ b3)), by simp only [List.cons_append, List.append_assoc],
      unended_cons (not_inputEnd_of_operator ho) (unended_append hb1 (unended_append hb2 hb3)), fun tail ht => ?_⟩
    simp only [List.cons_append, List.append_assoc]
    have hnext := front_next b3 ht
    refine .climbStep ho hy (hd1 _ ?_) (hd2 _ hnext) (hd3 tail ht)
    exact (front_next b2 hnext).imp_right fun h => (operators_calm (Calm.has_of_within hc h)).1

/-- `read` goes from the tokens `ts` to the tokens `bad`, and in the same way to all others with the same first token -/
def Foreseen (bad : List Token) (read : List Token → List Token → Prop) (ts : List Token) : Prop :=
  ∃ before, ts = before ++ bad ∧ Unended before ∧ ∀ tail, front tail = front bad → read (before ++ tail) tail

section Foreseeing

variable {l : Level} {n : Nat} {task : Task} {ts mid bad : List Token} {ns : List Node}
  {read read' : List Token → List Token → Prop}

theorem front_congr {us vs : List Token} (b : List Token) (h : front us = front vs) :
    front (b ++ us) = front (b ++ vs) := by
  cases b with
  | nil => exact h
  | cons t b => rfl

theorem Foreseen.here (h : ∀ tail, front tail = front bad → read tail tail) : Foreseen bad read bad :=
  ⟨[], rfl, nofun, h⟩

theorem Foreseen.map (h : Foreseen bad read ts) (hf : ∀ us tail, front us = front ts → read us tail → read' us tail) :
    Foreseen bad read' ts := by
  obtain ⟨b, rfl, hb, hr⟩ := h
  exact ⟨b, rfl, hb, fun tail ht => hf _ _ (front_congr b ht) (hr tail ht)⟩

/-- what a task reads before -/
theorem Foreseen.after (h : Foreseen bad read mid) (hd : Derives l.grammar n task ts ns mid) :
    Foreseen bad (fun us tail => ∃ vs, Derives l.grammar n task us ns vs ∧ read vs tail) ts := by
  obtain ⟨b2, rfl, hb2, hr⟩ := h
  obtain ⟨b1, rfl, hb1, hd⟩ := hd.followed (Task.orderly_never l task)
  refine ⟨b1 ++ b2, by rw [List.append_assoc], unended_append hb1 hb2, fun tail ht => ⟨b2 ++ tail, ?_, hr tail ht⟩⟩
  rw [List.append_assoc]
  exact hd _ (.inl (front_congr b2 ht))

/-- an operator before -/
theorem Foreseen.operator {op : Token} {table : OperatorTable} {p : Precedence} (h : Foreseen bad read ts)
    (ho : operatorOf table op = some p) : Foreseen bad (fun us tail => ∃ vs, us = op :: vs ∧ read vs tail) (op :: ts) := by
  obtain ⟨b, rfl, hb, hr⟩ := h
  exact ⟨op :: b, rfl, unended_cons (not_inputEnd_of_operator ho) hb, fun tail ht => ⟨b ++ tail, rfl, hr tail ht⟩⟩

end Foreseeing

/-- **A refusal depends on the tokens up to the refused one**, which are none of them the end of input. -/
theorem Refuses.followed {l : Level} {n : Nat} {task : Task} {ts bad : List Token} {wanted : Option String}
    (h : Refuses l.grammar n task ts bad wanted) :
    Foreseen bad (fun us tail => Refuses l.grammar n task us tail wanted) ts := by
  induction h with
  | rule _ ih => exact ih.map fun _ _ _ hr => .rule hr
  | here _ ih => exact ih.map fun _ _ _ hr => .here hr
  | later hd _ ih => exact (ih.after hd).map fun _ _ _ ⟨_, hd, hr⟩ => .later hd hr
  | call _ ih => exact ih.map fun _ _ _ hr => .call hr
  | unchosen hc => exact .here fun _ ht => .unchosen (by rwa [ht])
  | choice hc _ ih => exact ih.map fun _ _ hus hr => .choice (by rwa [hus]) hr
  | taken hbe _ ih => exact ih.map fun _ _ hus hr => .taken (by rwa [hus]) hr
  | repetition _ ih => exact ih.map fun _ _ _ hr => .repetition hr
  | manyFirst hbe _ ih => exact ih.map fun _ _ hus hr => .manyFirst (by rwa [hus]) hr
  | manyLater hbe hd _ ih => exact (ih.after hd).map fun _ _ hus ⟨_, hd, hr⟩ => .manyLater (by rwa [hus]) hd hr
  | token ha => exact .here fun _ ht => .token (by rwa [ht])
  | literal ha => exact .here fun _ ht => .literal (by rwa [ht])
  | operand _ ih => exact ih.map fun _ _ _ hr => .operand hr
  | chain hd _ ih => exact (ih.after hd).map fun _ _ _ ⟨_, hd, hr⟩ => .chain hd hr
  | climbOperand ho hy _ ih =>
    refine (ih.operator ho).map ?_
    rintro _ tail - ⟨vs, rfl, hr⟩
    exact .climbOperand ho hy hr
  | climbRight ho hy hd _ ih =>
    refine ((ih.after hd).operator ho).map ?_
    rintro _ tail - ⟨vs, rfl, _, hd, hr⟩
    exact .climbRight ho hy hd hr
  | climbRest ho hy hd1 hd2 _ ih =>
    refine (((ih.after hd2).after hd1).operator ho).map ?_
    rintro _ tail - ⟨vs, rfl, _, hd1, _, hd2, hr⟩
    exact .climbRest ho hy hd1 hd2 hr

end Stone
