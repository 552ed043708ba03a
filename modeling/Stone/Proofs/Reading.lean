/-
Reading expressions of the documented grammar. A task reads tokens before whatever leaves it alone: `Read` says so, and
has one lemma for each way in which a rule is made of elements. Which tokens leave a part of an expression alone depends
on the part. After an operand no call may come, after an expression no operator either, and after arguments no comma.

- `Chain.climbs`: operators and operands are read by their precedence, to the end of the chain.
- `Phrase.reads`: expressions of the documented grammar have a derivation, part by part.
-/
import Stone.Proofs.Documented
import Stone.Proofs.Lifted

namespace Stone

open TokenStream Parsing Grammar Stone.Language

/-! ## Names and first tokens -/

/-- texts with a meaning of their own, where names can stand -/
def meantTexts : List String :=
  reservedTexts .functions ++ ["(", "-", "if", "while", "def"] ++ OperatorTable.standard.entries.map Prod.fst

/-- an identifier that is always read as a name -/
def isName (t : Token) : Bool :=
  match t.lexeme with
  | .identifier s => !meantTexts.contains s
  | _ => false

/-- an operand can begin with this token -/
def startsPrimary (t : Token) : Bool :=
  t.isLiteral "(" || TokenClass.number.accepts t || TokenClass.string.accepts t || isName t

section First

variable {t : Token}

theorem exists_of_isName (h : isName t = true) : ∃ line s, t = Token.identifier line s ∧ s ∉ meantTexts := by
  obtain ⟨line, x⟩ := t
  cases x with
  | identifier s => exact ⟨line, s, rfl, by simpa [isName] using h⟩
  | _ => cases h

theorem accepts_of_isName (h : isName t = true) :
    (TokenClass.identifier (reservedTexts .functions)).accepts t = true := by
  obtain ⟨line, s, rfl, hs⟩ := exists_of_isName h
  have hreserved : s ∉ reservedTexts .functions := fun hr => hs (List.mem_append_left _ (List.mem_append_left _ hr))
  simpa [TokenClass.accepts, Token.identifier] using hreserved

theorem not_literal_of_isName {s : String} (hs : s ∈ meantTexts) (h : isName t = true) : t.isLiteral s = false := by
  obtain ⟨line, u, rfl, hu⟩ := exists_of_isName h
  refine Bool.eq_false_iff.2 fun he => hu ?_
  obtain rfl : u = s := by simpa [Token.isLiteral, Token.identifier] using he
  exact hs

theorem operator_of_isName (h : isName t = true) : operatorOf .standard t = none := by
  obtain ⟨line, s, rfl, hs⟩ := exists_of_isName h
  refine List.lookup_eq_none_iff.2 fun e he => ?_
  have hmem : e.1 ∈ meantTexts := List.mem_append_right _ (List.mem_map_of_mem he)
  exact bne_iff_ne.2 fun hse => hs (hse ▸ hmem)

theorem not_literal_of_startsPrimary {s : String} (hs : s ∈ ["-", "if", "while", "def"])
    (h : startsPrimary t = true) : t.isLiteral s = false := by
  simp only [startsPrimary, Bool.or_eq_true] at h
  rcases h with ((h | h) | h) | h
  · obtain ⟨line, rfl⟩ := eq_identifier (by decide) h
    simp only [List.mem_cons, List.not_mem_nil, or_false] at hs
    rcases hs with rfl | rfl | rfl | rfl <;> rfl
  · obtain ⟨line, x⟩ := t
    cases x <;> first | rfl | cases h
  · obtain ⟨line, x⟩ := t
    cases x <;> first | rfl | cases h
  · have hmeant : ∀ s ∈ ["-", "if", "while", "def"], s ∈ meantTexts := by decide
    exact not_literal_of_isName (hmeant s hs) h

/-- an operand that is not in parentheses begins with nothing that an expression goes on with -/
theorem ended_of_startsPrimary (h : startsPrimary t = true) (hc : t.isLiteral "(" = false) :
    operatorOf .standard t = none := by
  simp only [startsPrimary, hc, Bool.false_or, Bool.or_eq_true] at h
  rcases h with (h | h) | h
  · obtain ⟨line, x⟩ := t
    cases x <;> first | rfl | cases h
  · obtain ⟨line, x⟩ := t
    cases x <;> first | rfl | cases h
  · exact operator_of_isName h

end First

section Fronts

variable {name : Token → Prop} {n : Nat} {ts : List Token}

theorem Phrase.starts_primary (hname : ∀ t, name t → isName t = true) (h : Phrase name n .primary ts)
    (tail : List Token) : startsPrimary (front (ts ++ tail)) = true := by
  cases h with
  | grouped ho _ _ _ => simp [startsPrimary, ho]
  | number ha _ => simp [startsPrimary, ha]
  | name ha _ => simp [startsPrimary, hname _ ha]
  | string ha _ => simp [startsPrimary, ha]

/-- an expression begins with an operand or a minus sign -/
theorem Phrase.starts_expr (hname : ∀ t, name t → isName t = true) (h : Phrase name n .expr ts) (tail : List Token) :
    startsPrimary (front (ts ++ tail)) = true ∨ (front (ts ++ tail)).isLiteral "-" = true := by
  cases h with
  | expr hf _ =>
    rw [List.append_assoc]
    cases hf with
    | negative hm _ => exact .inr hm
    | factor hp => exact .inl (hp.starts_primary hname _)

theorem Phrase.expr_cons (h : Phrase name n .expr ts) : ∃ t us, ts = t :: us := by
  cases h with
  | expr hf _ =>
    cases hf with
    | negative _ _ => exact ⟨_, _, rfl⟩
    | factor hp => cases hp <;> exact ⟨_, _, rfl⟩

end Fronts

/-! ## Reading before a tail -/

/-- the task reads these tokens before all others that leave it alone -/
def Read (n : Nat) (task : Task) (calm : Token → Prop) (ts : List Token) : Prop :=
  ∀ tail, calm (front tail) → ∃ ns, Derives Level.functions.grammar n task (ts ++ tail) ns tail

namespace Read

variable {n : Nat} {id : RuleId} {e : Element} {es : List Element} {calm calm' : Token → Prop} {t : Token}
  {ts us : List Token}

theorem always {task : Task} (h : Read n task (fun _ => True) ts) : Read n task calm ts := fun tail _ => h tail trivial

theorem nil : Read n (.elements []) calm [] := fun _ _ => ⟨[], .nil⟩

/-- an element before others, which begin with something that leaves it alone -/
theorem before (h : Read n (.element e) calm ts) (hs : Read n (.elements es) calm' us)
    (hc : ∀ tail, calm' (front tail) → calm (front (us ++ tail))) : Read n (.elements (e :: es)) calm' (ts ++ us) := by
  intro tail ht
  obtain ⟨ms, hms⟩ := hs tail ht
  obtain ⟨ns, hns⟩ := h (us ++ tail) (hc tail ht)
  rw [List.append_assoc]
  exact ⟨_, .cons hns hms⟩

theorem last (h : Read n (.element e) calm ts) : Read n (.elements [e]) calm ts := by
  rw [← List.append_nil ts]
  exact h.before nil fun _ ht => ht

theorem literal {texts : List String} {keep : Bool} (ht : texts.any t.isLiteral = true)
    (hs : Read n (.elements es) calm us) : Read n (.elements (.literal texts keep :: es)) calm (t :: us) := by
  intro tail hcalm
  obtain ⟨ms, hms⟩ := hs tail hcalm
  exact ⟨_, .cons (.literal ht) hms⟩

theorem skip {s : String} (ht : t.isLiteral s = true) (hs : Read n (.elements es) calm us) :
    Read n (.elements (Grammar.skip s :: es)) calm (t :: us) := by
  refine hs.literal ?_
  rw [List.any_cons, ht]
  rfl

theorem token {cls : TokenClass} {kind : LeafKind} (ht : cls.accepts t = true) (hs : Read n (.elements es) calm us) :
    Read n (.elements (.token cls kind :: es)) calm (t :: us) := by
  intro tail hcalm
  obtain ⟨ms, hms⟩ := hs tail hcalm
  exact ⟨_, .cons (.token ht) hms⟩

theorem call (h : Read n (.rule id) calm ts) : Read n (.element (.rule id)) calm ts := by
  intro tail ht
  obtain ⟨ns, hns⟩ := h tail ht
  exact ⟨ns, .call hns⟩

theorem choice {ids : List RuleId} (h : Read n (.rule id) calm ts)
    (hc : ∀ tail, calm (front tail) → Level.functions.grammar.chosen (front (ts ++ tail)) ids = some (some id)) :
    Read n (.element (.choice ids)) calm ts := by
  intro tail ht
  obtain ⟨ns, hns⟩ := h tail ht
  exact ⟨ns, .choice (hc tail ht) hns⟩

theorem optional (h : Read n (.rule id) calm ts) : Read n (.element (.optional id)) calm ts := by
  intro tail ht
  obtain ⟨ns, hns⟩ := h tail ht
  obtain ⟨m, rfl⟩ := hns.rule_one
  exact ⟨_, .taken hns.begins hns⟩

theorem skipped (hc : ∀ t, calm t → Level.functions.grammar.begins t id = some false) :
    Read n (.element (.optional id)) calm [] := fun _ ht => ⟨[], .skipped (hc _ ht)⟩

theorem repetition (h : Read n (.many id) calm ts) : Read n (.element (.many id)) calm ts := by
  intro tail ht
  obtain ⟨ns, hns⟩ := h tail ht
  exact ⟨ns, .repetition hns⟩

theorem manyNil (hc : ∀ t, calm t → Level.functions.grammar.begins t id = some false) : Read n (.many id) calm [] :=
  fun _ ht => ⟨[], .manyNil (hc _ ht)⟩

theorem manyCons (h : Read n (.rule id) calm ts) (hs : Read n (.many id) calm' us)
    (hc : ∀ tail, calm' (front tail) → calm (front (us ++ tail))) : Read n (.many id) calm' (ts ++ us) := by
  intro tail ht
  obtain ⟨ms, hms⟩ := hs tail ht
  obtain ⟨ns, hns⟩ := h (us ++ tail) (hc tail ht)
  obtain ⟨m, rfl⟩ := hns.rule_one
  rw [List.append_assoc]
  exact ⟨_, .manyCons hns.begins hns hms⟩

theorem rule (h : Read n (.elements (elementsAt .functions id)) calm ts) : Read (n + 1) (.rule id) calm ts := by
  intro tail ht
  obtain ⟨ns, hns⟩ := h tail ht
  rw [← elements_eq] at hns
  exact ⟨_, .rule hns⟩

/-- what is read could begin -/
theorem begun {b : Bool} {tail : List Token} (h : Read n (.rule id) calm ts) (ht : calm (front tail))
    (hb : Level.functions.grammar.begins (front (ts ++ tail)) id = some b) : b = true := by
  obtain ⟨ns, hns⟩ := h tail ht
  exact Option.some.inj (hb.symm.trans hns.begins)

/-- a choice in parentheses -/
theorem bracketed {outer : RuleId} {ids : List RuleId} {o c : Token} (h : Read n (.rule id) calm ts)
    (he : elementsAt .functions outer = [Grammar.skip "(", .choice ids, Grammar.skip ")"])
    (ho : o.isLiteral "(" = true) (hc : c.isLiteral ")" = true) (hcalm : calm c)
    (hids : ∀ tail, calm (front tail) → Level.functions.grammar.chosen (front (ts ++ tail)) ids = some (some id)) :
    Read (n + 1) (.rule outer) (fun _ => True) (o :: (ts ++ [c])) := by
  refine .rule ?_
  rw [he]
  exact .skip ho (.before (.choice h hids) (.skip hc .nil) fun _ _ => hcalm)

end Read

/-! ## Reading expressions -/

/-- no call comes next -/
def NoCall (t : Token) : Prop := t.isLiteral "(" = false

/-- neither a call nor an operator comes next -/
def Ended (t : Token) : Prop := t.isLiteral "(" = false ∧ operatorOf .standard t = none

/-- operators, each with an operand that is read -/
inductive Chain (n : Nat) : List Token → Prop
  | nil : Chain n []
  | cons {op : Token} {p : Precedence} {ts us : List Token} : operatorOf .standard op = some p →
      Read n (.rule Place.factor) NoCall ts → Chain n us → Chain n (op :: (ts ++ us))

section Chains

variable {n : Nat} {us tail : List Token}

theorem noCall_of_operator {t : Token} {p : Precedence} (h : operatorOf .standard t = some p) : NoCall t := by
  obtain ⟨line, x⟩ := t
  cases x with
  | identifier s =>
    refine Bool.eq_false_iff.2 fun he => ?_
    obtain rfl : s = "(" := by simpa [Token.isLiteral] using he
    cases h
  | _ => cases h

theorem Chain.noCall (h : Chain n us) (ht : Ended (front tail)) : NoCall (front (us ++ tail)) := by
  cases h with
  | nil => exact ht.1
  | cons ho _ _ => exact noCall_of_operator ho

/-- **Operator chains are read.** The operators that the waiting one yields to are taken, and then comes one that it
does not yield to, or the end of the chain. -/
theorem Chain.climbs (h : Chain n us) (ht : Ended (front tail)) (waiting : Option Precedence) (left : Node) :
    ∃ m vs, Derives Level.functions.grammar n (.climb Place.factor .standard .binary waiting left) (us ++ tail) [m]
      (vs ++ tail) ∧ Chain n vs ∧ vs.length ≤ us.length ∧ (waiting = none → vs = []) := by
  -- by the number of tokens: the right side of an operator is read before what comes after it
  induction hk : us.length using Nat.strongRecOn generalizing us waiting left with
  | ind k ih =>
    subst hk
    cases h with
    | nil => exact ⟨left, [], climb_stops ht.2, .nil, Nat.le_refl _, fun _ => rfl⟩
    | @cons op p ts us ho hts hus =>
      cases hy : yields waiting p with
      | false =>
        refine ⟨left, op :: (ts ++ us), .climbStop fun q hq => ?_, .cons ho hts hus, Nat.le_refl _, ?_⟩
        · rw [List.cons_append, front_cons, ho] at hq
          cases hq
          exact hy
        · rintro rfl
          cases hy
      | true =>
        obtain ⟨ns, hfirst⟩ := hts (us ++ tail) (hus.noCall ht)
        obtain ⟨first, rfl⟩ := hfirst.rule_one
        have hlen : us.length < (op :: (ts ++ us)).length := by
          rw [List.length_cons, List.length_append]
          omega
        obtain ⟨right, vs, hright, hvs, hle, -⟩ := ih us.length hlen hus (some p) first rfl
        obtain ⟨m, ws, hmore, hws, hle', hnone⟩ :=
          ih vs.length (hle.trans_lt hlen) hvs waiting (ListKind.binary.build [left, .leaf .mark op, right]) rfl
        refine ⟨m, ws, ?_, hws, by omega, hnone⟩
        rw [List.cons_append, List.append_assoc]
        exact .climbStep ho hy hfirst hright hmore

end Chains

section Expressions

variable {n : Nat} {t : Token} {us : List Token}

theorem noCall_begins (h : NoCall t) : Level.functions.grammar.begins t Place.call = some false := by
  rw [begins_first .functions t (rfl : elementsAt .functions Place.call = _ :: _)]
  simpa [NoCall] using h

theorem ended_of_quiet (h : Quiet t) : Ended t := ⟨h.call, h.operator⟩

theorem quiet_of_close (h : t.isLiteral ")" = true) : Quiet t := by
  obtain ⟨line, rfl⟩ := eq_identifier (by decide) h
  exact quiet_mark (by decide)

theorem Phrase.moreArgs_ended {name : Token → Prop} {firsts tail : List Token}
    (h : Phrase name n (.moreArgs firsts) us) (ht : Quiet (front tail)) : Ended (front (us ++ tail)) := by
  cases h with
  | noMoreArgs => exact ended_of_quiet ht
  | moreArgs hc _ _ =>
    obtain ⟨line, rfl⟩ := eq_identifier (by decide) hc
    exact ⟨rfl, rfl⟩

/-- an operand, by the alternative that its first token chooses, and the calls on it -/
theorem Read.primary {id : RuleId} {ts : List Token} (h : Read n (.rule id) (fun _ => True) ts)
    (hc : ∀ tail, operandRule .functions (front (ts ++ tail)) = some id) (hs : Read n (.many Place.call) NoCall us) :
    Read (n + 1) (.rule Place.primary) NoCall (ts ++ us) :=
  .rule (.before (.choice h fun tail _ => (chosen_primary .functions _).trans (congrArg some (hc tail)))
    (.last (.repetition hs)) fun _ _ => trivial)

/-- an operand of one token -/
theorem Read.leaf {id : RuleId} {cls : TokenClass} {kind : LeafKind}
    (he : elementsAt .functions id = [.token cls kind]) (hc : operandRule .functions t = some id)
    (ha : cls.accepts t = true) (hs : Read (n + 1) (.many Place.call) NoCall us) :
    Read (n + 2) (.rule Place.primary) NoCall (t :: us) := by
  have hleaf : Read (n + 1) (.rule id) (fun _ => True) [t] := .rule (he ▸ .token ha .nil)
  exact hleaf.primary (fun _ => hc) hs

theorem operandRule_of_accepts {cls : TokenClass} (h : cls.accepts t = true) :
    (cls = .number → operandRule .functions t = some Place.number) ∧
      (cls = .string → operandRule .functions t = some Place.string) := by
  obtain ⟨line, x⟩ := t
  constructor <;> rintro rfl <;> cases x <;> first | rfl | cases h

theorem operandRule_of_isName (h : isName t = true) : operandRule .functions t = some Place.name := by
  obtain ⟨line, s, rfl, hs⟩ := exists_of_isName h
  refine operandRule_name ⟨fun hr => hs (List.mem_append_left _ (List.mem_append_left _ hr)), ?_, nofun⟩
  rintro rfl
  exact hs (by decide)

end Expressions

/-- how the parts of expressions are read -/
abbrev PhraseReads (n : Nat) : PhraseKind → List Token → Prop
  | .primary => Read n (.rule Place.primary) NoCall
  | .calls => Read n (.many Place.call) NoCall
  | .call => Read n (.rule Place.call) fun _ => True
  | .factor => Read n (.rule Place.factor) NoCall
  | .operations => Chain n
  | .expr => Read n (.rule Place.expression) Ended
  | .args _ => Read n (.rule Place.arguments) Quiet
  | .moreArgs _ => Read n (.many Place.moreArguments) Quiet

/-- **Expressions of the documented grammar are read.** -/
theorem Phrase.reads {name : Token → Prop} {n : Nat} {kind : PhraseKind} {ts : List Token}
    (hname : ∀ t, name t → isName t = true) (h : Phrase name n kind ts) : PhraseReads n kind ts := by
  induction h with
  | @grouped n o c ts us ho _ hc _ ih1 ih2 =>
    have hgroup : Read (n + 1) (.rule Place.grouped) (fun _ => True) (o :: (ts ++ [c])) :=
      .rule (.skip ho (.before (.call ih1) (.skip hc .nil) fun _ _ => ended_of_quiet (quiet_of_close hc)))
    have h := hgroup.primary (fun tail => ?_) ih2
    · simpa using h
    · obtain ⟨line, rfl⟩ := eq_identifier (by decide) ho
      exact operandRule_group .functions line
  | number ha _ ih => exact .leaf rfl ((operandRule_of_accepts ha).1 rfl) ha ih
  | name ha _ ih => exact .leaf rfl (operandRule_of_isName (hname _ ha)) (accepts_of_isName (hname _ ha)) ih
  | string ha _ ih => exact .leaf rfl ((operandRule_of_accepts ha).2 rfl) ha ih
  | noCalls => exact .manyNil fun _ => noCall_begins
  | moreCalls _ _ ih1 ih2 => exact .manyCons ih1 ih2 fun _ _ => trivial
  | @emptyCall n o c ho hc =>
    have hnone : Read (n + 1) (.rule Place.noArguments) (·.isLiteral ")" = true) [] := .rule .nil
    refine hnone.bracketed rfl ho hc hc fun tail ht => ?_
    obtain ⟨line, ht⟩ := eq_identifier (by decide) ht
    rw [chosen_arguments, List.nil_append, ht]
    rfl
  | call ho _ hc ih =>
    refine ih.bracketed rfl ho hc (quiet_of_close hc) fun tail ht => ?_
    rw [chosen_arguments, ih.begun ht (begins_arguments .functions _)]
    rfl
  | negative hm _ ih =>
    have hneg : Read _ (.rule Place.negative) NoCall _ := .rule (.skip hm (.last (.call ih)))
    refine .rule (.last (.choice hneg fun tail _ => ?_))
    rw [chosen_factor, List.cons_append, front_cons, hm]
    rfl
  | factor hp ih =>
    refine .rule (.last (.choice ih fun tail ht => ?_))
    have hopens := ih.begun ht ((begins_eq .functions _ _).trans (begins_primary .functions _ 27))
    rw [chosen_factor, hopens, not_literal_of_startsPrimary (by decide) (hp.starts_primary hname tail)]
    rfl
  | noOperation => exact .nil
  | operation ho _ _ ih1 ih2 =>
    obtain ⟨p, hp⟩ := Option.isSome_iff_exists.1 ho
    exact .cons hp ih1 ih2
  | @expr n ts us _ _ ih1 ih2 =>
    refine .rule (.last fun tail ht => ?_)
    obtain ⟨ns, hfirst⟩ := ih1 (us ++ tail) (Chain.noCall ih2 ht)
    obtain ⟨first, rfl⟩ := hfirst.rule_one
    obtain ⟨m, vs, hclimb, -, -, hvs⟩ := Chain.climbs ih2 ht none first
    obtain rfl := hvs rfl
    rw [List.append_assoc]
    exact ⟨_, .chain hfirst hclimb⟩
  | noMoreArgs => exact .manyNil fun _ ht => (quiet_skips ht).2.2.1
  | moreArgs hc _ hus ih1 ih2 =>
    have hmore : Read _ (.rule Place.moreArguments) Ended _ := .rule (.skip hc (.last (.call ih1)))
    exact hmore.manyCons ih2 fun _ => hus.moreArgs_ended
  | args _ hus ih1 ih2 =>
    exact .rule (.before (.call ih1) (.last (.repetition ih2)) fun _ => hus.moreArgs_ended)

end Stone
