/-
Viable prefixes. Parsing refuses a token as soon as the tokens before it, with this one, are the beginning of no
statement: what comes after the refused token makes no difference, and what comes before it can be completed.

A completion goes on where the refusal is and closes the elements that are still open around it, from the inside to the
outside. Every element of a rule has a sample, tokens that it reads from nothing; `checks_rule` says that the samples of
the elements after any point of a rule are read there, whatever was read before that point.

- `Refuses.completed`: the tokens before a refused one can be completed.
- `viable_prefix`: what a refused token says about the tokens before it and about those after it.
-/
import Stone.Proofs.Lookahead

namespace Stone

open TokenStream Parsing Grammar

namespace Language

/-! ## Samples -/

/-- tokens for an element, where `sample` gives them for rules. The last alternative is the one that needs least. -/
def sampleElement (sample : RuleId → List Token) : Element → List Token
  | .rule id | .operators id _ _ => sample id
  | .choice ids => ids.getLast?.elim [] sample
  | .optional _ | .many _ => []
  | .token .number _ => [Token.number 1 Decimal.one]
  | .token .string _ => [Token.string 1 ""]
  | .token (.identifier _) _ => [Token.identifier 1 "x"]
  | .literal texts _ => texts.head?.toList.map (Token.identifier 1)

/-- tokens for a rule, with rules nested at most so deep -/
def sampleRule (l : Level) : Nat → RuleId → List Token
  | 0, _ => []
  | k + 1, id => (elementsAt l id).flatMap (sampleElement (sampleRule l k))

/-- tokens for a list of elements -/
def sample (l : Level) (es : List Element) : List Token := es.flatMap (sampleElement (sampleRule l 8))

/-- the rules that a level has a use for -/
def inUse (l : Level) (id : RuleId) : Bool := l.hasFunctions || id < Place.param || Place.closure < id

/-- a token that leaves every element alone -/
def mark : Token := Token.identifier 1 "\x7d"

/-- are the elements read from their sample, up to the mark -/
def readsSample (l : Level) (es : List Element) : Bool :=
  match (l.grammar.parseElements 12 (l.grammar.parseRule 12 12) es).run (ofTokens (sample l es ++ [mark])) with
  | .ok _ ⟨[t], []⟩ => t == mark
  | _ => false

/-- does what comes after an element leave it alone: the sample of the elements `es`, or, if it is empty, any token of
the class -/
def leavesAlone (l : Level) (c : Calm) (es : List Element) (e : Element) : Bool :=
  match sample l es with
  | [] => c.within (calmAfterElement l e)
  | t :: _ => (calmAfterElement l e).has l t

/-- an element reads its sample, and calls rules in use -/
def checksElement (l : Level) (e : Element) : Bool := readsSample l [e] && (calls e).all (inUse l)

/-- at every point of a list of elements the rest is read from its sample, which leaves the elements before it alone -/
def checks (l : Level) (c : Calm) : List Element → Bool
  | [] => true
  | e :: es => checksElement l e && readsSample l (e :: es) && leavesAlone l c es e && checks l c es

theorem checks_rule (l : Level) : ∀ id, inUse l id = true → checks l (calmAfter id) (elementsAt l id) = true :=
  forall_places (by cases l <;> decide +kernel) fun _ _ => rfl

end Language

open Stone.Language

/-! ## Completions from nothing -/

/-- the task is part of a rule in use -/
def Task.InUse (l : Level) (c : Calm) : Task → Prop
  | rule id | many id | climb id _ _ _ _ => inUse l id = true
  | element e => checksElement l e = true
  | elements es => checks l c es = true

/-- tokens that the task reads from nothing -/
def Task.sample (l : Level) : Task → List Token
  | rule id => Language.sample l (elementsAt l id)
  | element e => Language.sample l [e]
  | elements es => Language.sample l es
  | many _ | climb _ _ _ _ _ => []

section Samples

variable {l : Level} {c : Calm} {tail : List Token}

/-- the sample of the elements is read before whatever leaves them alone -/
theorem derives_sample {es : List Element} (h : readsSample l es = true) (ho : isOrderly l c es = true)
    (ht : c.has l (front tail) = true) :
    ∃ ns, Derives l.grammar 12 (.elements es) (Language.sample l es ++ tail) ns tail := by
  unfold readsSample at h
  split at h
  · rename_i ns t hr
    obtain ⟨rest, hrest, hd⟩ := justified_elements (derives_of_run l.grammar 12 12) es _ _ _ hr
    obtain rfl : [t] = rest := congrArg TokenStream.waiting hrest
    obtain rfl : t = mark := eq_of_beq h
    obtain ⟨b, hb, -, hread⟩ := hd.followed (show (Task.elements es).Orderly l c from ho)
    obtain rfl := List.append_cancel_right hb
    exact ⟨ns, hread tail (.inr ht)⟩
  · cases h

theorem derives_sample_all {es : List Element} (h : checks l c es = true) (ho : isOrderly l c es = true)
    (ht : c.has l (front tail) = true) :
    ∃ ns, Derives l.grammar 12 (.elements es) (Language.sample l es ++ tail) ns tail := by
  cases es with
  | nil => exact ⟨[], .nil⟩
  | cons e es =>
    simp only [checks, Bool.and_eq_true] at h
    exact derives_sample h.1.1.2 ho ht

theorem orderly_single {e : Element} (h : c.within (calmAfterElement l e) = true) : isOrderly l c [e] = true := by
  simp [isOrderly, h]

theorem many_stops {n : Nat} {id : RuleId} (h : (calmAfterElement l (.many id)).has l (front tail) = true) :
    Derives l.grammar n (.many id) tail [] tail :=
  .manyNil (begins_calm (Calm.has_of_within (Calm.min_within_left _ _) h)).2

/-- **From nothing.** Every task of a rule in use reads its sample. -/
theorem Task.derives_sample {task : Task} (ho : task.Orderly l c) (hu : task.InUse l c)
    (ht : c.has l (front tail) = true) : ∃ ns, Derives l.grammar 13 task (task.sample l ++ tail) ns tail := by
  cases task with
  | rule id =>
    obtain ⟨ns, hd⟩ := derives_sample_all (checks_rule l id hu) (orderly_rule l id) (Calm.has_of_within ho ht)
    exact ⟨_, .rule (by rw [elements_eq]; exact hd)⟩
  | elements es =>
    obtain ⟨ns, hd⟩ := derives_sample_all hu ho ht
    exact ⟨ns, hd.mono (by decide)⟩
  | element e =>
    simp only [InUse, checksElement, Bool.and_eq_true] at hu
    obtain ⟨ns, hd⟩ := Stone.derives_sample hu.1 (orderly_single ho) ht
    cases hd with
    | cons he hnil =>
      cases hnil
      exact ⟨_, he.mono (by decide)⟩
  | many id => exact ⟨[], many_stops (Calm.has_of_within ho ht)⟩
  | climb id table kind waiting left => exact ⟨[left], climb_stops (operators_calm (Calm.has_of_within ho ht)).2⟩

/-- what an element read it reads again before the sample of the elements after it -/
theorem calm_sample {es : List Element} {e : Element} (h : leavesAlone l c es e = true)
    (ht : c.has l (front tail) = true) : (calmAfterElement l e).has l (front (Language.sample l es ++ tail)) = true := by
  unfold leavesAlone at h
  split at h
  · rename_i hs
    rw [hs]
    exact Calm.has_of_within h ht
  · rename_i t more hs
    rw [hs]
    exact h

end Samples

/-! ## Completions -/

/-- the tokens before the refused one can be completed, for a task before whatever leaves it alone. Where nothing was
read the completion is the sample. -/
def Completed (l : Level) (c : Calm) (task : Task) (ts bad : List Token) : Prop :=
  ∃ before cut k, ts = before ++ bad ∧ (before = [] → cut = task.sample l) ∧
    ∀ tail, c.has l (front tail) = true → ∃ ns, Derives l.grammar k task (before ++ (cut ++ tail)) ns tail

section Completions

variable {l : Level} {c : Calm} {task : Task} {bad : List Token}

/-- a completion for the case that something was read is enough -/
theorem Completed.of_read (before cut : List Token) (k : Nat) (ho : task.Orderly l c) (hu : task.InUse l c)
    (h : before ≠ [] → ∀ tail, c.has l (front tail) = true →
      ∃ ns, Derives l.grammar k task (before ++ (cut ++ tail)) ns tail) : Completed l c task (before ++ bad) bad := by
  by_cases hb : before = []
  · subst hb
    exact ⟨[], task.sample l, 13, rfl, fun _ => rfl, fun tail ht => task.derives_sample ho hu ht⟩
  · exact ⟨before, cut, k, rfl, fun he => absurd he hb, h hb⟩

/-- nothing was read -/
theorem Completed.of_nothing (ho : task.Orderly l c) (hu : task.InUse l c) : Completed l c task bad bad :=
  .of_read [] [] 0 ho hu fun hb => absurd rfl hb

theorem front_read {before : List Token} (hb : before ≠ []) (us vs : List Token) :
    front (before ++ us) = front (before ++ vs) := by
  rw [front_append (.inl hb), front_append (.inl hb)]

/-- a completion begins with the token that was there, or with a sample -/
theorem Completed.next {c' : Calm} {ts : List Token} (h : Completed l c task ts bad)
    (hsample : ∀ tail, c.has l (front tail) = true → c'.has l (front (task.sample l ++ tail)) = true) :
    ∃ before cut k, ts = before ++ bad ∧ ∀ tail, c.has l (front tail) = true →
      (front (before ++ (cut ++ tail)) = front ts ∨ c'.has l (front (before ++ (cut ++ tail))) = true) ∧
      ∃ ns, Derives l.grammar k task (before ++ (cut ++ tail)) ns tail := by
  obtain ⟨before, cut, k, rfl, hcut, hd⟩ := h
  refine ⟨before, cut, k, rfl, fun tail ht => ⟨?_, hd tail ht⟩⟩
  by_cases hb : before = []
  · refine .inr ?_
    rw [hb, hcut hb]
    exact hsample tail ht
  · exact .inl (front_read hb _ _)

/-- what a task reads before a completion -/
theorem Completed.after {c' : Calm} {n : Nat} {task' : Task} {ts mid : List Token} {ns : List Node}
    (h : Completed l c task mid bad) (hd : Derives l.grammar n task' ts ns mid) (ho : task'.Orderly l c')
    (hsample : ∀ tail, c.has l (front tail) = true → c'.has l (front (task.sample l ++ tail)) = true) :
    ∃ before cut k, ts = before ++ bad ∧ ∀ tail, c.has l (front tail) = true →
      (front (before ++ (cut ++ tail)) = front ts ∨ c'.has l (front (before ++ (cut ++ tail))) = true) ∧
      ∃ us ms, Derives l.grammar k task' (before ++ (cut ++ tail)) ns us ∧ Derives l.grammar k task us ms tail := by
  obtain ⟨b2, cut, k, rfl, hmore⟩ := h.next hsample
  obtain ⟨b1, rfl, -, hd⟩ := hd.followed ho
  refine ⟨b1 ++ b2, cut, max n k, by rw [List.append_assoc], fun tail ht => ?_⟩
  obtain ⟨hnext, ms, hms⟩ := hmore tail ht
  rw [List.append_assoc]
  exact ⟨front_next b1 hnext, _, ms, (hd _ hnext).mono (Nat.le_max_left _ _), hms.mono (Nat.le_max_right _ _)⟩

theorem inUse_of_calls {e : Element} {id : RuleId} (h : checksElement l e = true) (hid : id ∈ calls e) :
    inUse l id = true := by
  simp only [checksElement, Bool.and_eq_true] at h
  exact List.all_eq_true.1 h.2 id hid

/-- **Completions.** The tokens before a refused one can be completed, at every point of the rules in use. -/
theorem Refuses.completed {n : Nat} {ts : List Token} {wanted : Option String}
    (h : Refuses l.grammar n task ts bad wanted) (ho : task.Orderly l c) (hu : task.InUse l c) :
    Completed l c task ts bad := by
  induction h generalizing c with
  | @rule n id ts bad wanted _ ih =>
    have horderly := orderly_rule l id
    have hchecks := checks_rule l id hu
    rw [← elements_eq] at horderly hchecks
    obtain ⟨b, cut, k, rfl, -, hd⟩ := ih horderly hchecks
    refine .of_read b cut (k + 1) ho hu fun _ tail ht => ?_
    obtain ⟨ns, hd⟩ := hd tail (Calm.has_of_within ho ht)
    exact ⟨_, .rule hd⟩
  | @here n e es ts bad wanted _ ih =>
    have hparts := hu
    simp only [Task.InUse, checks, Bool.and_eq_true] at hparts
    obtain ⟨⟨⟨he, -⟩, hleaves⟩, hes⟩ := hparts
    obtain ⟨b, cut, k, rfl, -, hd⟩ := ih (Calm.within_refl (calmAfterElement l e)) he
    -- the element is completed, and the sample of the others comes after it
    refine .of_read b (cut ++ Language.sample l es) (max k 12) ho hu fun _ tail ht => ?_
    obtain ⟨ns, hd⟩ := hd _ (calm_sample hleaves ht)
    obtain ⟨ms, hms⟩ := derives_sample_all hes (Bool.and_eq_true_iff.1 ho).2 ht
    rw [List.append_assoc]
    exact ⟨_, .cons (hd.mono (Nat.le_max_left _ _)) (hms.mono (Nat.le_max_right _ _))⟩
  | @later n e es ts mid bad ns wanted hd _ ih =>
    have hparts := hu
    simp only [Task.InUse, checks, Bool.and_eq_true] at hparts
    obtain ⟨⟨⟨-, -⟩, hleaves⟩, hes⟩ := hparts
    obtain ⟨b, cut, k, rfl, hread⟩ := (ih (Bool.and_eq_true_iff.1 ho).2 hes).after hd
      (Calm.within_refl (calmAfterElement l e)) fun _ => calm_sample hleaves
    refine .of_read b cut k ho hu fun _ tail ht => ?_
    obtain ⟨-, us, ms, hd, hms⟩ := hread tail ht
    exact ⟨_, .cons hd hms⟩
  | @call n id ts bad wanted _ ih =>
    obtain ⟨b, cut, k, rfl, -, hd⟩ := ih ho (inUse_of_calls hu List.mem_cons_self)
    refine .of_read b cut k ho hu fun _ tail ht => ?_
    obtain ⟨ns, hd⟩ := hd tail ht
    exact ⟨ns, .call hd⟩
  | unchosen _ => exact .of_nothing ho hu
  | @choice n ids id ts bad wanted hc _ ih =>
    have hid := (mem_of_firstThat hc).1
    obtain ⟨b, cut, k, rfl, -, hd⟩ := ih (Calm.within_refl (calmAfter id)) (inUse_of_calls hu hid)
    refine .of_read b cut k ho hu fun hb tail ht => ?_
    obtain ⟨ns, hd⟩ := hd tail (choice_calm hid (Calm.has_of_within ho ht))
    exact ⟨ns, .choice (by rwa [front_read hb _ bad]) hd⟩
  | @taken n id ts bad wanted hbe _ ih =>
    obtain ⟨b, cut, k, rfl, -, hd⟩ := ih (Calm.within_refl (calmAfter id)) (inUse_of_calls hu List.mem_cons_self)
    refine .of_read b cut k ho hu fun hb tail ht => ?_
    obtain ⟨ns, hd⟩ := hd tail (Calm.has_of_within (Calm.min_within_right _ _) (Calm.has_of_within ho ht))
    obtain ⟨m, rfl⟩ := hd.rule_one
    exact ⟨_, .taken (by rwa [front_read hb _ bad]) hd⟩
  | @repetition n id ts bad wanted _ ih =>
    obtain ⟨b, cut, k, rfl, -, hd⟩ := ih ho (inUse_of_calls hu List.mem_cons_self)
    refine .of_read b cut k ho hu fun _ tail ht => ?_
    obtain ⟨ns, hd⟩ := hd tail ht
    exact ⟨ns, .repetition hd⟩
  | @manyFirst n id ts bad wanted hbe _ ih =>
    obtain ⟨b, cut, k, rfl, -, hd⟩ := ih (Calm.within_refl (calmAfter id)) hu
    refine .of_read b cut k ho hu fun hb tail ht => ?_
    have hcalm := Calm.has_of_within ho ht
    obtain ⟨ns, hd⟩ := hd tail (Calm.has_of_within (Calm.min_within_right _ _) hcalm)
    obtain ⟨m, rfl⟩ := hd.rule_one
    exact ⟨_, .manyCons (by rwa [front_read hb _ bad]) hd (many_stops hcalm)⟩
  | @manyLater n id ts mid bad m wanted hbe hd _ ih =>
    obtain ⟨b, cut, k, rfl, hread⟩ := (ih ho hu).after hd (Calm.within_refl (calmAfter id)) fun _ ht =>
      Calm.has_of_within (Calm.min_within_right _ _) (Calm.has_of_within ho ht)
    refine .of_read b cut k ho hu fun hb tail ht => ?_
    obtain ⟨-, us, ms, hd, hms⟩ := hread tail ht
    exact ⟨_, .manyCons (by rwa [front_read hb _ bad]) hd hms⟩
  | token _ => exact .of_nothing ho hu
  | literal _ => exact .of_nothing ho hu
  | @operand n id table kind ts bad wanted _ ih =>
    obtain ⟨b, cut, k, rfl, -, hd⟩ := ih (Calm.within_refl (calmAfter id)) (inUse_of_calls hu List.mem_cons_self)
    refine .of_read b cut k ho hu fun _ tail ht => ?_
    obtain ⟨hcalm, hno⟩ := operators_calm (Calm.has_of_within ho ht)
    obtain ⟨ns, hd⟩ := hd tail hcalm
    obtain ⟨m, rfl⟩ := hd.rule_one
    exact ⟨_, .chain hd (climb_stops hno)⟩
  | @chain n id table kind ts mid bad first wanted hd _ ih =>
    obtain ⟨b, cut, k, rfl, hread⟩ := (ih ho (inUse_of_calls hu List.mem_cons_self)).after hd
      (Calm.within_refl (calmAfter id)) fun _ ht => (operators_calm (Calm.has_of_within ho ht)).1
    refine .of_read b cut k ho hu fun _ tail ht => ?_
    obtain ⟨-, us, ms, hd, hms⟩ := hread tail ht
    exact ⟨_, .chain hd hms⟩
  | @climbOperand n id table kind waiting left op ts bad p wanted hop hy _ ih =>
    obtain ⟨b, cut, k, rfl, -, hd⟩ := ih (Calm.within_refl (calmAfter id)) hu
    refine .of_read (op :: b) cut k ho hu fun _ tail ht => ?_
    obtain ⟨hcalm, hno⟩ := operators_calm (Calm.has_of_within ho ht)
    obtain ⟨ns, hd⟩ := hd tail hcalm
    obtain ⟨m, rfl⟩ := hd.rule_one
    exact ⟨_, .climbStep hop hy hd (climb_stops hno) (climb_stops hno)⟩
  | @climbRight n id table kind waiting left first op ts mid bad p wanted hop hy hd _ ih =>
    obtain ⟨b, cut, k, rfl, hread⟩ := (ih ho hu).after hd (Calm.within_refl (calmAfter id)) fun _ ht =>
      (operators_calm (Calm.has_of_within ho ht)).1
    refine .of_read (op :: b) cut k ho hu fun _ tail ht => ?_
    obtain ⟨-, us, ms, hd, hms⟩ := hread tail ht
    obtain ⟨m, rfl⟩ := hms.climb_one
    exact ⟨_, .climbStep hop hy hd hms (climb_stops (operators_calm (Calm.has_of_within ho ht)).2)⟩
  | @climbRest n id table kind waiting left first right op ts mid after bad p wanted hop hy hd1 hd2 _ ih =>
    obtain ⟨b2, cut, k, rfl, hread⟩ := (ih ho hu).after hd2
      (Calm.within_refl (calmAfterElement l (.operators id table kind))) fun _ => Calm.has_of_within ho
    obtain ⟨b1, rfl, -, hd1⟩ := hd1.followed (Calm.within_refl (calmAfter id))
    rw [← List.append_assoc]
    refine .of_read (op :: (b1 ++ b2)) cut (max n k) ho hu fun _ tail ht => ?_
    obtain ⟨hnext, us, ms, hd2, hms⟩ := hread tail ht
    have hfirst := hd1 _ (hnext.imp_right fun h => (operators_calm h).1)
    rw [List.cons_append, List.append_assoc]
    exact ⟨_, .climbStep hop hy (hfirst.mono (Nat.le_max_left _ _)) (hd2.mono (Nat.le_max_right _ _))
      (hms.mono (Nat.le_max_right _ _))⟩

end Completions

/-! ## Statements -/

/-- a statement, with rules nested at most so deep -/
def Language.parseStatementWithin (limit : Nat) (lang : Language) : Parsing Node := do
  lang.grammar.parseRule ((← get).size + 1) limit lang.rules.program

theorem parseStatementWithin_maxNesting (lang : Language) :
    lang.parseStatementWithin maxNesting = lang.parseStatement := rfl

/-- the token at a place, with the end of input after the last one -/
def tokenAt (ts : List Token) (i : Nat) : Token := ts[i]?.getD Token.inputEnd

section Statements

variable {l : Level} {n : Nat} {ts : List Token} {bad : List Token} {wanted : Option String}

theorem run_parseStatementWithin (l : Level) (n : Nat) (ts : List Token) :
    ((ofLevel l).parseStatementWithin n).run (ofTokens ts) =
      (l.grammar.parseRule (ts.length + 1) n Place.program).run (ofTokens ts) := by
  rw [Language.parseStatementWithin, run_get_bind fun s => l.grammar.parseRule (s.size + 1) n (ofLevel l).rules.program,
    program_eq]
  rfl

/-- a refusal of a statement is carried out -/
theorem run_of_refuses (h : Refuses l.grammar n (.rule Place.program) ts bad wanted) :
    RefusedAt bad wanted (((ofLevel l).parseStatementWithin n).run (ofTokens ts)) := by
  rw [run_parseStatementWithin]
  have hb := Nat.lt_succ_self ts.length
  exact .of_one (h.run (steady l) trivial hb hb)

/-- a statement that is refused has a refusal -/
theorem refuses_of_run {t : Token} {left : TokenStream}
    (h : ((ofLevel l).parseStatementWithin n).run (ofTokens ts) = .error (.raised (.unexpected t wanted)) left) :
    ∃ bad, Refuses l.grammar n (.rule Place.program) ts bad wanted ∧ t = front bad ∧
      (left = ofTokens bad ∨ left = ofTokens bad.tail) := by
  rw [run_parseStatementWithin] at h
  have hend := run_verdict (steady l) (begins_answered l) n Place.program (Nat.lt_succ_self ts.length)
  rw [RuleVerdict, h] at hend
  cases hend with
  | refused hr hat =>
    obtain ⟨s, hs, hleft⟩ := hat
    cases hs
    exact ⟨_, hr, rfl, hleft⟩

theorem tokenAt_append (before ts : List Token) : tokenAt (before ++ ts) before.length = front ts := by
  rw [tokenAt, List.getElem?_append_right (Nat.le_refl _), Nat.sub_self]
  cases ts <;> rfl

/-- tokens that agree with some that are none of them the end of input begin with them -/
theorem exists_append_of_agree {before us : List Token} (hb : Unended before)
    (h : ∀ j < before.length, tokenAt us j = tokenAt (before ++ ts) j) : ∃ tail, us = before ++ tail := by
  refine ⟨us.drop before.length, ?_⟩
  have htake : us.take before.length = before := by
    refine List.ext_getElem? fun j => ?_
    rw [List.getElem?_take]
    split
    · rename_i hj
      have hj' := h j hj
      rw [tokenAt, tokenAt, List.getElem?_append_left hj, List.getElem?_eq_getElem hj] at hj'
      rw [List.getElem?_eq_getElem hj]
      cases hu : us[j]? with
      | some u => rw [hu] at hj'; exact congrArg some hj'
      | none =>
        have hend := hb before[j] (List.getElem_mem hj)
        rw [hu] at hj'
        rw [← show Token.inputEnd = before[j] from hj'] at hend
        cases hend
    · rename_i hj
      exact (List.getElem?_eq_none (Nat.le_of_not_lt hj)).symm
  conv_lhs => rw [← List.take_append_drop before.length us, htake]

/-- **Viable prefixes.** Where a statement is refused at a token, every list of tokens with the same tokens up to that
one is refused in the same way, and some list with the same tokens before it is a statement: however deep rules may
nest, as long as they may nest as deep as they did. -/
theorem viable_prefix {t : Token} {left : TokenStream}
    (h : ((ofLevel l).parseStatementWithin n).run (ofTokens ts) = .error (.raised (.unexpected t wanted)) left) :
    ∃ i, tokenAt ts i = t ∧ (left = ofTokens (ts.drop i) ∨ left = ofTokens (ts.drop (i + 1))) ∧
      (∀ us, (∀ j ≤ i, tokenAt us j = tokenAt ts j) → ∀ m ≥ n, ∃ left',
        ((ofLevel l).parseStatementWithin m).run (ofTokens us) = .error (.raised (.unexpected t wanted)) left') ∧
      ∃ us, (∀ j < i, tokenAt us j = tokenAt ts j) ∧ ∃ k, ∀ m ≥ k, ∃ node left',
        ((ofLevel l).parseStatementWithin m).run (ofTokens us) = .ok node left' := by
  obtain ⟨bad, hr, rfl, hleft⟩ := refuses_of_run h
  obtain ⟨before, rfl, hb, hsame⟩ := hr.followed
  refine ⟨before.length, tokenAt_append before bad, ?_, fun us hus m hm => ?_, ?_⟩
  · simpa using hleft
  · obtain ⟨tail, rfl⟩ := exists_append_of_agree hb fun j hj => hus j (Nat.le_of_lt hj)
    have hfront : front tail = front bad := by
      have := hus before.length (Nat.le_refl _)
      rwa [tokenAt_append, tokenAt_append] at this
    obtain ⟨s, hs, -⟩ := run_of_refuses ((hsame tail hfront).mono hm)
    rw [hfront] at hs
    exact ⟨s, hs⟩
  · have hprogram : inUse l Place.program = true := by cases l <;> rfl
    obtain ⟨before', cut, k, hb', -, hd⟩ := hr.completed (c := .any) rfl hprogram
    obtain rfl := List.append_cancel_right hb'
    obtain ⟨ns, hd⟩ := hd [] rfl
    obtain ⟨node, rfl⟩ := hd.rule_one
    refine ⟨before ++ (cut ++ []), fun j hj => ?_, k, fun m hm => ⟨node, ofTokens [], ?_⟩⟩
    · rw [tokenAt, tokenAt, List.getElem?_append_left hj, List.getElem?_append_left hj]
    · rw [run_parseStatementWithin]
      exact (hd.mono hm).run_rule (steady l) (Nat.lt_succ_self _)

/-- a call whose arguments end with a brace -/
def unclosedCall : List Token := ["f", "(", "x", "\x7d"].map (Token.identifier 1)

/-- the brace is refused, where a parenthesis was wanted -/
theorem viable_prefix_unclosed_call :
    (Language.functions.parseStatementWithin maxNesting).run (ofTokens unclosedCall) =
        .error (.raised (.unexpected (Token.identifier 1 "\x7d") (some ")"))) (ofTokens []) ∧
      ∃ i, tokenAt unclosedCall i = Token.identifier 1 "\x7d" ∧
        (ofTokens [] = ofTokens (unclosedCall.drop i) ∨ ofTokens [] = ofTokens (unclosedCall.drop (i + 1))) ∧
        (∀ us, (∀ j ≤ i, tokenAt us j = tokenAt unclosedCall j) → ∀ m ≥ maxNesting, ∃ left',
          (Language.functions.parseStatementWithin m).run (ofTokens us) =
            .error (.raised (.unexpected (Token.identifier 1 "\x7d") (some ")"))) left') ∧
        ∃ us, (∀ j < i, tokenAt us j = tokenAt unclosedCall j) ∧ ∃ k, ∀ m ≥ k, ∃ node left',
          (Language.functions.parseStatementWithin m).run (ofTokens us) = .ok node left' := by
  have h : (Language.functions.parseStatementWithin maxNesting).run (ofTokens unclosedCall) =
      .error (.raised (.unexpected (Token.identifier 1 "\x7d") (some ")"))) (ofTokens []) := by rfl
  exact ⟨h, viable_prefix (l := .functions) h⟩

end Statements

end Stone
