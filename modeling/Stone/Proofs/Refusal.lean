/-
Refusals: what it means that a table of rules refuses a token, apart from how parsing finds out. A refusal of a task
says which tokens are read before, and gives what is left from the refused token on, with the literal that was wanted
instead. Like a derivation it looks one token ahead and no further.

- `run_verdict`: parsing a list of tokens ends with a derivation, with a refusal or for want of room, and in no other
  way. In particular it ends.
- `Refuses.run`: a refusal is carried out.
- `Refuses.mono`: more room for nesting does no harm.
-/
import Stone.Proofs.Fate

namespace Stone

open TokenStream Parsing Grammar

/-- in table `g`, with rules nested at most so deep, a task on some tokens refuses the first of the tokens `bad`, where
it wants a literal -/
inductive Refuses (g : Grammar) : Nat → Task → List Token → List Token → Option String → Prop
  | rule {n : Nat} {id : RuleId} {ts bad : List Token} {wanted : Option String} :
      Refuses g n (.elements (g.rule id).elements) ts bad wanted → Refuses g (n + 1) (.rule id) ts bad wanted
  | here {n : Nat} {e : Element} {es : List Element} {ts bad : List Token} {wanted : Option String} :
      Refuses g n (.element e) ts bad wanted → Refuses g n (.elements (e :: es)) ts bad wanted
  | later {n : Nat} {e : Element} {es : List Element} {ts mid bad : List Token} {ns : List Node}
      {wanted : Option String} :
      Derives g n (.element e) ts ns mid → Refuses g n (.elements es) mid bad wanted →
      Refuses g n (.elements (e :: es)) ts bad wanted
  | call {n : Nat} {id : RuleId} {ts bad : List Token} {wanted : Option String} :
      Refuses g n (.rule id) ts bad wanted → Refuses g n (.element (.rule id)) ts bad wanted
  | unchosen {n : Nat} {ids : List RuleId} {ts : List Token} :
      g.chosen (front ts) ids = some none → Refuses g n (.element (.choice ids)) ts ts none
  | choice {n : Nat} {ids : List RuleId} {id : RuleId} {ts bad : List Token} {wanted : Option String} :
      g.chosen (front ts) ids = some (some id) → Refuses g n (.rule id) ts bad wanted →
      Refuses g n (.element (.choice ids)) ts bad wanted
  | taken {n : Nat} {id : RuleId} {ts bad : List Token} {wanted : Option String} :
      g.begins (front ts) id = some true → Refuses g n (.rule id) ts bad wanted →
      Refuses g n (.element (.optional id)) ts bad wanted
  | repetition {n : Nat} {id : RuleId} {ts bad : List Token} {wanted : Option String} :
      Refuses g n (.many id) ts bad wanted → Refuses g n (.element (.many id)) ts bad wanted
  | manyFirst {n : Nat} {id : RuleId} {ts bad : List Token} {wanted : Option String} :
      g.begins (front ts) id = some true → Refuses g n (.rule id) ts bad wanted →
      Refuses g n (.many id) ts bad wanted
  | manyLater {n : Nat} {id : RuleId} {ts mid bad : List Token} {m : Node} {wanted : Option String} :
      g.begins (front ts) id = some true → Derives g n (.rule id) ts [m] mid →
      Refuses g n (.many id) mid bad wanted → Refuses g n (.many id) ts bad wanted
  | token {n : Nat} {cls : TokenClass} {kind : LeafKind} {ts : List Token} :
      cls.accepts (front ts) = false → Refuses g n (.element (.token cls kind)) ts ts none
  | literal {n : Nat} {texts : List String} {keep : Bool} {ts : List Token} :
      texts.any (front ts).isLiteral = false → Refuses g n (.element (.literal texts keep)) ts ts texts.head?
  | operand {n : Nat} {id : RuleId} {table : OperatorTable} {kind : ListKind} {ts bad : List Token}
      {wanted : Option String} :
      Refuses g n (.rule id) ts bad wanted → Refuses g n (.element (.operators id table kind)) ts bad wanted
  | chain {n : Nat} {id : RuleId} {table : OperatorTable} {kind : ListKind} {ts mid bad : List Token} {first : Node}
      {wanted : Option String} :
      Derives g n (.rule id) ts [first] mid → Refuses g n (.climb id table kind none first) mid bad wanted →
      Refuses g n (.element (.operators id table kind)) ts bad wanted
  | climbOperand {n : Nat} {id : RuleId} {table : OperatorTable} {kind : ListKind} {waiting : Option Precedence}
      {left : Node} {op : Token} {ts bad : List Token} {p : Precedence} {wanted : Option String} :
      operatorOf table op = some p → yields waiting p = true → Refuses g n (.rule id) ts bad wanted →
      Refuses g n (.climb id table kind waiting left) (op :: ts) bad wanted
  | climbRight {n : Nat} {id : RuleId} {table : OperatorTable} {kind : ListKind} {waiting : Option Precedence}
      {left first : Node} {op : Token} {ts mid bad : List Token} {p : Precedence} {wanted : Option String} :
      operatorOf table op = some p → yields waiting p = true → Derives g n (.rule id) ts [first] mid →
      Refuses g n (.climb id table kind (some p) first) mid bad wanted →
      Refuses g n (.climb id table kind waiting left) (op :: ts) bad wanted
  | climbRest {n : Nat} {id : RuleId} {table : OperatorTable} {kind : ListKind} {waiting : Option Precedence}
      {left first right : Node} {op : Token} {ts mid after bad : List Token} {p : Precedence}
      {wanted : Option String} :
      operatorOf table op = some p → yields waiting p = true → Derives g n (.rule id) ts [first] mid →
      Derives g n (.climb id table kind (some p) first) mid [right] after →
      Refuses g n (.climb id table kind waiting (kind.build [left, .leaf .mark op, right])) after bad wanted →
      Refuses g n (.climb id table kind waiting left) (op :: ts) bad wanted

/-- more room for nesting does no harm -/
theorem Refuses.mono {g : Grammar} {n m : Nat} {task : Task} {ts bad : List Token} {wanted : Option String}
    (h : Refuses g n task ts bad wanted) (hm : n ≤ m) : Refuses g m task ts bad wanted := by
  induction h generalizing m with
  | rule _ ih =>
    obtain ⟨k, rfl⟩ : ∃ k, m = k + 1 := ⟨m - 1, by omega⟩
    exact .rule (ih (by omega))
  | here _ ih => exact .here (ih hm)
  | later hd _ ih => exact .later (hd.mono hm) (ih hm)
  | call _ ih => exact .call (ih hm)
  | unchosen hc => exact .unchosen hc
  | choice hc _ ih => exact .choice hc (ih hm)
  | taken hb _ ih => exact .taken hb (ih hm)
  | repetition _ ih => exact .repetition (ih hm)
  | manyFirst hb _ ih => exact .manyFirst hb (ih hm)
  | manyLater hb hd _ ih => exact .manyLater hb (hd.mono hm) (ih hm)
  | token ha => exact .token ha
  | literal ha => exact .literal ha
  | operand _ ih => exact .operand (ih hm)
  | chain hd _ ih => exact .chain (hd.mono hm) (ih hm)
  | climbOperand ho hy _ ih => exact .climbOperand ho hy (ih hm)
  | climbRight ho hy hd _ ih => exact .climbRight ho hy (hd.mono hm) (ih hm)
  | climbRest ho hy hd1 hd2 _ ih => exact .climbRest ho hy (hd1.mono hm) (hd2.mono hm) (ih hm)

/-! ## Refusals are carried out -/

/-- the run refuses the first of the tokens `bad`, which it has taken or only seen -/
def RefusedAt {α : Type} (bad : List Token) (wanted : Option String) (r : Ending α) : Prop :=
  ∃ s, r = .error (.raised (.unexpected (front bad) wanted)) s ∧ (s = ofTokens bad ∨ s = ofTokens bad.tail)

section Carrying

variable {α β : Type} {p : Parsing α} {f : α → Parsing β} {s s' : TokenStream} {a : α} {bad : List Token}
  {wanted : Option String}

theorem RefusedAt.bind (h : RefusedAt bad wanted (p.run s)) : RefusedAt bad wanted ((p >>= f).run s) := by
  obtain ⟨s', hr, hs⟩ := h
  exact ⟨s', by rw [EStateM.run_bind, hr], hs⟩

theorem RefusedAt.after (hp : p.run s = .ok a s') (h : RefusedAt bad wanted ((f a).run s')) :
    RefusedAt bad wanted ((p >>= f).run s) := by
  rw [EStateM.run_bind, hp]
  exact h

/-- a tree and the list of it are refused in the same way -/
theorem RefusedAt.of_one {p : Parsing Node}
    (h : RefusedAt bad wanted ((do return [← p] : Parsing (List Node)).run s)) : RefusedAt bad wanted (p.run s) := by
  obtain ⟨s', hr, hs⟩ := h
  rw [EStateM.run_bind] at hr
  cases hp : p.run s with
  | ok a s₁ => rw [hp] at hr; cases hr
  | error e s₁ => rw [hp] at hr; cases hr; exact ⟨_, rfl, hs⟩

theorem Derives.run_rule {g : Grammar} {n budget : Nat} {id : RuleId} {ts rest : List Token} {m : Node}
    (h : Derives g n (.rule id) ts [m] rest) (hg : g.Steady) (hb : ts.length < budget) :
    (g.parseRule budget n id).run (ofTokens ts) = .ok m (ofTokens rest) := by
  have hr := h.run hg trivial hb hb
  obtain ⟨m', s, h1, h2⟩ := ok_of_bind hr
  cases h2
  exact h1

theorem Derives.run_climb {g : Grammar} {n budget fuel : Nat} {id : RuleId} {table : OperatorTable} {kind : ListKind}
    {waiting : Option Precedence} {left m : Node} {ts rest : List Token}
    (h : Derives g n (.climb id table kind waiting left) ts [m] rest) (hg : g.Steady) (hb : ts.length < budget)
    (hf : ts.length < fuel) :
    (climb table kind (g.parseRule budget n id) fuel waiting left).run (ofTokens ts) = .ok m (ofTokens rest) := by
  have hr := h.run hg trivial hb hf
  obtain ⟨m', s, h1, h2⟩ := ok_of_bind hr
  cases h2
  exact h1

/-- **Refusals are carried out.** With the room it takes, parsing refuses the token that a refusal says. -/
theorem Refuses.run {g : Grammar} {n budget fuel : Nat} {task : Task} {ts : List Token}
    (h : Refuses g n task ts bad wanted) (hg : g.Steady) (ht : task.Steady g) (hb : ts.length < budget)
    (hf : ts.length < fuel) : RefusedAt bad wanted ((task.run g budget n fuel).run (ofTokens ts)) := by
  induction h generalizing fuel with
  | @rule _ id _ _ _ _ ih => exact .bind (.bind (ih (hg id) hb hf))
  | here _ ih => exact .bind (ih (ht _ List.mem_cons_self) hb hf)
  | later hd _ ih =>
    have hlen := hd.suffix.length_le
    refine .after (hd.run hg (ht _ List.mem_cons_self) hb hf) (.bind ?_)
    exact ih (fun e he => ht e (List.mem_cons_of_mem _ he)) (by omega) (show _ < fuel by omega)
  | call _ ih => exact ih trivial hb hf
  | @unchosen _ ids ts hc =>
    refine .after ((run_choose g ts ids).trans (congrArg _ hc)) (.after (run_peek ts) ?_)
    exact ⟨ofTokens ts, rfl, .inl rfl⟩
  | @choice _ ids _ ts _ _ hc _ ih =>
    exact .after ((run_choose g ts ids).trans (congrArg _ hc)) (ih trivial hb hf)
  | @taken _ id ts _ _ hbe _ ih =>
    exact .after ((run_canBegin g ts id).trans (congrArg _ hbe)) (.bind (.of_one (ih trivial hb hf)))
  | repetition _ ih => exact ih ht hb hb
  | @manyFirst _ id ts _ _ hbe _ ih =>
    obtain ⟨k, rfl⟩ : ∃ k, fuel = k + 1 := ⟨fuel - 1, by omega⟩
    exact .after ((run_canBegin g ts id).trans (congrArg _ hbe)) (.bind (.of_one (ih trivial hb hf)))
  | @manyLater _ id ts _ _ _ _ hbe hd _ ih =>
    obtain ⟨k, rfl⟩ : ∃ k, fuel = k + 1 := ⟨fuel - 1, by omega⟩
    have hlen := hd.takes ht.2
    refine .after ((run_canBegin g ts id).trans (congrArg _ hbe)) (.after (hd.run_rule hg hb) (.bind ?_))
    exact ih ht (by omega) (show _ < k by omega)
  | @token _ cls kind ts ha =>
    refine .after (run_read ts) ⟨ofTokens ts.tail, ?_, .inr rfl⟩
    simp only [ha]
    rfl
  | @literal _ texts keep ts ha =>
    refine .after (run_read ts) ⟨ofTokens ts.tail, ?_, .inr rfl⟩
    simp only [ha]
    rfl
  | operand _ ih => exact .bind (.of_one (ih trivial hb hf))
  | chain hd _ ih =>
    have hlen := hd.suffix.length_le
    exact .after (hd.run_rule hg hb) (ih trivial (by omega) (show _ < budget by omega))
  | climbOperand ho hy _ ih =>
    obtain ⟨k, rfl⟩ : ∃ k, fuel = k + 1 := ⟨fuel - 1, by omega⟩
    simp only [List.length_cons] at hb hf
    refine .bind ?_
    rw [run_climb_step ho hy]
    exact .bind (.of_one (ih trivial (by omega) (show _ < k by omega)))
  | climbRight ho hy hd _ ih =>
    obtain ⟨k, rfl⟩ : ∃ k, fuel = k + 1 := ⟨fuel - 1, by omega⟩
    simp only [List.length_cons] at hb hf
    have hlen := hd.suffix.length_le
    refine .bind ?_
    rw [run_climb_step ho hy]
    exact .after (hd.run_rule hg (by omega)) (.bind (.of_one (ih trivial (by omega) (show _ < k by omega))))
  | climbRest ho hy hd1 hd2 _ ih =>
    obtain ⟨k, rfl⟩ : ∃ k, fuel = k + 1 := ⟨fuel - 1, by omega⟩
    simp only [List.length_cons] at hb hf
    have hlen1 := hd1.suffix.length_le
    have hlen2 := hd2.suffix.length_le
    refine .bind ?_
    rw [run_climb_step ho hy]
    refine .after (hd1.run_rule hg (by omega)) (.after (hd2.run_climb hg (by omega) (by omega)) ?_)
    exact .of_one (ih trivial (by omega) (show _ < k by omega))

end Carrying

/-! ## Runs end -/

/-- how a run on bare tokens ends: it reads, it refuses a token, or it finds too little room -/
inductive Verdict {α : Type} (reads : α → List Token → Prop) (refuses : List Token → Option String → Prop) :
    Ending α → Prop
  | reads {a : α} {rest : List Token} : reads a rest → Verdict reads refuses (.ok a (ofTokens rest))
  | refused {bad : List Token} {wanted : Option String} {r : Ending α} : refuses bad wanted →
      RefusedAt bad wanted r → Verdict reads refuses r
  | tooDeep {line : Nat} {s : TokenStream} : Verdict reads refuses (.error (.raised (.tooDeep line)) s)

section Ending

variable {α β : Type} {reads : α → List Token → Prop} {refuses : List Token → Option String → Prop}
  {reads' : β → List Token → Prop} {refuses' : List Token → Option String → Prop} {p : Parsing α} {f : α → Parsing β}
  {s : TokenStream}

theorem Verdict.bind (hp : Verdict reads refuses (p.run s)) (hr : ∀ bad wanted, refuses bad wanted → refuses' bad wanted)
    (hf : ∀ a mid, reads a mid → Verdict reads' refuses' ((f a).run (ofTokens mid))) :
    Verdict reads' refuses' ((p >>= f).run s) := by
  rw [EStateM.run_bind]
  generalize p.run s = r at hp
  cases hp with
  | reads h => exact hf _ _ h
  | refused h hat =>
    obtain ⟨s', rfl, hs⟩ := hat
    exact .refused (hr _ _ h) ⟨s', rfl, hs⟩
  | tooDeep => exact .tooDeep

theorem Verdict.imp {reads' : α → List Token → Prop} {r : Ending α} (h : Verdict reads refuses r)
    (hr : ∀ bad wanted, refuses bad wanted → refuses' bad wanted) (hk : ∀ a rest, reads a rest → reads' a rest) :
    Verdict reads' refuses' r := by
  cases h with
  | reads h => exact .reads (hk _ _ h)
  | refused h hat => exact .refused (hr _ _ h) hat
  | tooDeep => exact .tooDeep

/-- what a run gives, changed -/
theorem Verdict.map (hp : Verdict reads refuses (p.run s)) (k : α → β)
    (hr : ∀ bad wanted, refuses bad wanted → refuses' bad wanted) (hk : ∀ a rest, reads a rest → reads' (k a) rest) :
    Verdict reads' refuses' ((do return k (← p)).run s) :=
  hp.bind hr fun a _ h => .reads (hk a _ h)

end Ending

section Ends

variable {g : Grammar} {n budget : Nat} {ts : List Token}

/-- how a rule ends on bare tokens -/
abbrev RuleVerdict (g : Grammar) (budget n : Nat) (id : RuleId) (ts : List Token) : Prop :=
  Verdict (fun m rest => Derives g n (.rule id) ts [m] rest) (Refuses g n (.rule id) ts)
    ((g.parseRule budget n id).run (ofTokens ts))

section Rule

variable {id : RuleId} (hrule : ∀ ts, ts.length < budget → RuleVerdict g budget n id ts)

include hrule

theorem many_verdict (ha : ∀ t, ∃ b, g.begins t id = some b) (hs : (Element.many id).Steady g) {fuel : Nat}
    (hb : ts.length < budget) (hf : ts.length < fuel) :
    Verdict (Derives g n (.many id) ts) (Refuses g n (.many id) ts)
      ((parseMany (g.canBegin id) (g.parseRule budget n id) fuel).run (ofTokens ts)) := by
  induction fuel generalizing ts with
  | zero => cases hf
  | succ fuel ih =>
    obtain ⟨b, hbe⟩ := ha (front ts)
    rw [parseMany, Parsing.lift_self, run_bind_answer ((run_canBegin g ts id).trans (congrArg _ hbe))]
    cases b with
    | false => exact .reads (.manyNil hbe)
    | true =>
      refine (hrule ts hb).bind (fun _ _ h => .manyFirst hbe h) fun m mid hm => ?_
      have hlen := hm.takes hs.2
      exact (ih (by omega) (by omega)).map _ (fun _ _ h => .manyLater hbe hm h) fun ns rest h => .manyCons hbe hm h

theorem climb_verdict (table : OperatorTable) (kind : ListKind) {fuel : Nat} (waiting : Option Precedence) (left : Node)
    (hb : ts.length < budget) (hf : ts.length < fuel) :
    Verdict (fun m rest => Derives g n (.climb id table kind waiting left) ts [m] rest)
      (Refuses g n (.climb id table kind waiting left) ts)
      ((climb table kind (g.parseRule budget n id) fuel waiting left).run (ofTokens ts)) := by
  induction fuel generalizing ts waiting left with
  | zero => cases hf
  | succ fuel ih =>
    -- a token that is no operator, or binds too loosely, ends the chain
    have hstop (h : ∀ p, operatorOf table (front ts) = some p → yields waiting p = false) :
        (climb table kind (g.parseRule budget n id) (fuel + 1) waiting left).run (ofTokens ts) =
          .ok left (ofTokens ts) := by
      rw [climb, Parsing.lift_self, EStateM.run_bind, run_nextOperator]
      cases ho : operatorOf table (front ts) with
      | none => rfl
      | some p => simp only [h p ho]; rfl
    by_cases hstep : ∃ p, operatorOf table (front ts) = some p ∧ yields waiting p = true
    · obtain ⟨p, ho, hy⟩ := hstep
      cases ts with
      | nil => cases ho
      | cons op ts =>
        rw [front_cons] at ho
        rw [List.length_cons] at hb hf
        rw [run_climb_step ho hy]
        refine (hrule ts (by omega)).bind (fun _ _ h => .climbOperand ho hy h) fun first mid hfirst => ?_
        have hlen1 := hfirst.suffix.length_le
        refine (ih (some p) first (by omega) (by omega)).bind (fun _ _ h => .climbRight ho hy hfirst h)
          fun right after hright => ?_
        have hlen2 := hright.suffix.length_le
        exact (ih waiting _ (by omega) (by omega)).imp (fun _ _ h => .climbRest ho hy hfirst hright h)
          fun _ _ h => .climbStep ho hy hfirst hright h
    · have hno : ∀ p, operatorOf table (front ts) = some p → yields waiting p = false := fun p hp =>
        Bool.eq_false_iff.2 fun hy => hstep ⟨p, hp, hy⟩
      rw [hstop hno]
      exact .reads (.climbStop hno)

end Rule

/-- reading a token and checking it -/
theorem checked_verdict {α : Type} {reads : α → List Token → Prop} {refuses : List Token → Option String → Prop}
    (accepts : Token → Bool) (give : Token → α) (wanted : Option String) (hend : accepts Token.inputEnd = false)
    (hreads : ∀ t us, ts = t :: us → accepts t = true → reads (give t) us)
    (hrefuses : accepts (front ts) = false → refuses ts wanted) :
    Verdict reads refuses ((do
      let t ← read
      if accepts t then return give t else fail (.unexpected t wanted) : Parsing α).run (ofTokens ts)) := by
  rw [EStateM.run_bind, run_read]
  cases ha : accepts (front ts) with
  | false =>
    refine .refused (hrefuses ha) ⟨ofTokens ts.tail, ?_, .inr rfl⟩
    simp only [ha]
    rfl
  | true =>
    simp only [ha, if_true]
    cases ts with
    | nil => rw [front_nil, hend] at ha; cases ha
    | cons t us => exact .reads (hreads t us rfl ha)

section Rules

variable (hrule : ∀ id ts, ts.length < budget → RuleVerdict g budget n id ts)
  (ha : ∀ t id, ∃ b, g.begins t id = some b)

include hrule ha

theorem element_verdict {e : Element} (hs : e.Steady g) (hb : ts.length < budget) :
    Verdict (Derives g n (.element e) ts) (Refuses g n (.element e) ts)
      ((g.parseElement budget (g.parseRule budget n) e).run (ofTokens ts)) := by
  cases e with
  | rule id => exact (hrule id ts hb).map _ (fun _ _ h => .call h) fun _ _ h => .call h
  | choice ids =>
    obtain ⟨o, ho⟩ := Language.firstThat_answered fun id (_ : id ∈ ids) => ha (front ts) id
    have hask := (run_choose g ts ids).trans (congrArg _ ho)
    rw [parseElement, Parsing.lift_self, run_bind_answer hask]
    cases o with
    | none => exact .refused (.unchosen ho) (.after (run_peek ts) ⟨ofTokens ts, rfl, .inl rfl⟩)
    | some id => exact (hrule id ts hb).map _ (fun _ _ h => .choice ho h) fun _ _ h => .choice ho h
  | optional id =>
    obtain ⟨b, hbe⟩ := ha (front ts) id
    rw [parseElement, Parsing.lift_self, run_bind_answer ((run_canBegin g ts id).trans (congrArg _ hbe))]
    cases b with
    | false => exact .reads (.skipped hbe)
    | true => exact (hrule id ts hb).map _ (fun _ _ h => .taken hbe h) fun _ _ h => .taken hbe h
  | many id =>
    exact (many_verdict (hrule id) (fun t => ha t id) hs hb hb).imp (fun _ _ h => .repetition h)
      fun _ _ h => .repetition h
  | token cls kind =>
    refine checked_verdict cls.accepts _ none (accepts_inputEnd cls) ?_ fun ha => .token ha
    rintro t us rfl ha
    exact .token ha
  | literal texts keep =>
    refine checked_verdict (fun t => texts.any t.isLiteral) _ texts.head? (isLiteral_inputEnd texts) ?_
      fun ha => .literal ha
    rintro t us rfl ha
    exact .literal ha
  | operators id table kind =>
    refine (hrule id ts hb).bind (fun _ _ h => .operand h) fun first mid hfirst => ?_
    have hlen := hfirst.suffix.length_le
    have hmid : mid.length < budget := by omega
    exact (climb_verdict (hrule id) table kind none first hmid hmid).map _ (fun _ _ h => .chain hfirst h)
      fun m rest h => .chain hfirst h

theorem elements_verdict {es : List Element} (hs : ∀ e ∈ es, e.Steady g) (hb : ts.length < budget) :
    Verdict (Derives g n (.elements es) ts) (Refuses g n (.elements es) ts)
      ((g.parseElements budget (g.parseRule budget n) es).run (ofTokens ts)) := by
  induction es generalizing ts with
  | nil => exact .reads .nil
  | cons e es ih =>
    obtain ⟨he, hes⟩ := List.forall_mem_cons.1 hs
    refine (element_verdict hrule ha he hb).bind (fun _ _ h => .here h) fun ns mid hd => ?_
    have hlen := hd.suffix.length_le
    exact (ih hes (by omega)).map _ (fun _ _ h => .later hd h) fun ms rest h => .cons hd h

end Rules

/-- **Runs end.** In a steady table without circles, parsing a rule reads it, refuses a token or finds too little room.
-/
theorem run_verdict (hg : g.Steady) (ha : ∀ t id, ∃ b, g.begins t id = some b) (n : Nat) (id : RuleId)
    (hb : ts.length < budget) : RuleVerdict g budget n id ts := by
  induction n generalizing id ts with
  | zero =>
    rw [RuleVerdict, parseRule, EStateM.run_bind, run_peek]
    exact .tooDeep
  | succ n ih =>
    have h := elements_verdict (fun id ts hb => ih id hb) ha (hg id) hb
    exact h.map _ (fun _ _ h => .rule h) fun _ _ h => .rule h

end Ends

end Stone
