/-
The depth that is held already. Evaluation and parsing are handed the levels that they have left. Here the levels that
are held are counted instead, as a host with one counter for all calls does it: a call enters a level, unless as many
are held as may be, and gives it back at every exit. The counter need not be zero when a run starts.

Counting does what handing down does, and it leaves the counter as it was, also after an error deep inside. So depth that
is held already is depth that is missing at the end, and what that can do is said by comparing two runs of which one has
fewer levels left: the one with fewer is refused, or both do the same. Nothing catches a refusal, so it is what the run
ends with.

A refused rule looks at the next token for the line of its error, and a line that does not scan is then the error. This
is no third way to end: a rule that is not empty looks at the line as well when it is not refused, and an empty rule
stands only where the line has been looked at.

- `Counting.evaluate_counts`, `Counting.parseRule_counts`: counting is handing down what is left.
- `evaluate_refusable`, `parseRule_refusable`: fewer levels only ever refuse.
- `held_depth_only_refuses`: runs that start with levels held.
-/
import Stone.Proofs.Comparison
import Stone.Proofs.Machine

namespace Stone

open TokenStream Parsing Evaluation

/-! ## Counters -/

/-- a state, and the number of levels that are held -/
structure Tally (σ : Type) where
  state : σ
  held : Nat

/-- actions on a state beside a counter -/
abbrev Counting (ε σ : Type) := EStateM (Stop ε) (Tally σ)

namespace Counting

variable {ε σ α β : Type} {k : Nat}

/-- the same end, with so many levels held -/
def withHeld (k : Nat) : EStateM.Result (Stop ε) σ α → EStateM.Result (Stop ε) (Tally σ) α
  | .ok a s => .ok a ⟨s, k⟩
  | .error e s => .error e ⟨s, k⟩

/-- an action that leaves the counter alone -/
def onState (p : EStateM (Stop ε) σ α) : Counting ε σ α := fun t => withHeld t.held (p.run t.state)

instance : MonadLift (EStateM (Stop ε) σ) (Counting ε σ) := ⟨onState⟩

/-- an action that holds a level while it runs, unless `limit` levels are held already -/
def guarded (limit : Nat) (refusal : EStateM (Stop ε) σ α) (p : Counting ε σ α) : Counting ε σ α := do
  if limit ≤ (← get).held then refusal
  else
    modify fun t => { t with held := t.held + 1 }
    try p
    finally modify fun t => { t with held := t.held - 1 }

/-- where `k` levels are held, counting does what the action without a counter does, and holds `k` levels afterwards -/
def Counts (k : Nat) (p : Counting ε σ α) (q : EStateM (Stop ε) σ α) : Prop := ∀ s, p.run ⟨s, k⟩ = withHeld k (q.run s)

section Rules

variable {p : Counting ε σ α} {q : EStateM (Stop ε) σ α} {f : α → Counting ε σ β} {g : α → EStateM (Stop ε) σ β}

theorem Counts.pure (a : α) : Counts k (Pure.pure a : Counting ε σ α) (Pure.pure a) := fun _ => rfl

theorem Counts.lift (q : EStateM (Stop ε) σ α) : Counts k (liftM q) q := fun _ => rfl

theorem Counts.bind (hp : Counts k p q) (hf : ∀ a, Counts k (f a) (g a)) : Counts k (p >>= f) (q >>= g) := by
  intro s
  rw [EStateM.run_bind, EStateM.run_bind, hp s]
  cases q.run s with
  | error e s' => rfl
  | ok a s' => exact hf a s'

theorem run_guarded (limit : Nat) (refusal : EStateM (Stop ε) σ α) (p : Counting ε σ α) (t : Tally σ) :
    (guarded limit refusal p).run t =
      if limit ≤ t.held then withHeld t.held (refusal.run t.state)
      else
        match p.run ⟨t.state, t.held + 1⟩ with
        | .ok a u => .ok a ⟨u.state, u.held - 1⟩
        | .error e u => .error e ⟨u.state, u.held - 1⟩ := by
  have hbegin : (guarded limit refusal p).run t =
      (if limit ≤ t.held then liftM refusal
        else do
          modify fun t => { t with held := t.held + 1 }
          try p
          finally modify fun t => { t with held := t.held - 1 } : Counting ε σ α).run t := rfl
  rw [hbegin]
  split
  · rfl
  · change (tryFinally p _ : Counting ε σ α).run ⟨t.state, t.held + 1⟩ = _
    unfold tryFinally
    rw [EStateM.run_map]
    simp only [EStateM.run, tryFinally']
    cases p ⟨t.state, t.held + 1⟩ with
    | ok a u => rfl
    | error e u => rfl

/-- a call that has a level left enters it and gives it back, whatever it ends with -/
theorem Counts.entered {limit : Nat} {refusal : EStateM (Stop ε) σ α} (hk : k < limit) (hp : Counts (k + 1) p q) :
    Counts k (guarded limit refusal p) q := by
  intro s
  rw [run_guarded, if_neg (Nat.not_le.2 hk), hp s]
  cases q.run s with
  | ok a s' => rfl
  | error e s' => rfl

/-- a call that has no level left is refused -/
theorem Counts.refused {limit : Nat} {refusal : EStateM (Stop ε) σ α} (hk : limit ≤ k) :
    Counts k (guarded limit refusal p) refusal := by
  intro s
  rw [run_guarded, if_pos hk]

end Rules

/-! ## Evaluation that counts -/

/-- evaluation with a counter. The number of calls inside each other that it may make bounds nothing: the counter refuses
before. -/
def evaluateWithin (rounds : Nat) : Nat → Node → ScopeId → Counting EvalError Heap Value
  | 0, _, _ => (throw .endless : Evaluation Value)
  | calls + 1, n, s =>
    guarded maxEvaluation (Evaluation.fail (.tooDeep n.line?)) (evalNode rounds (evaluateWithin rounds calls) n s)

def evaluate (rounds : Nat) : Node → ScopeId → Counting EvalError Heap Value := evaluateWithin rounds (maxEvaluation + 1)

/-- counting corresponds to evaluation at every count, whatever errors there are -/
theorem counts (k : Nat) : Correspondence (m := Counting EvalError Heap) (fun p q => Counts k p q) fun _ => True where
  pure a := .pure a
  bind hp hf := hp.bind hf
  step {_ q} _ := .lift q

theorem evaluateWithin_counts (rounds : Nat) {calls k : Nat} (hcalls : maxEvaluation ≤ calls + k) (n : Node)
    (s : ScopeId) : Counts k (evaluateWithin rounds (calls + 1) n s) (Stone.evaluate rounds (maxEvaluation - k) n s) := by
  induction calls generalizing k n s with
  | zero =>
    have hk : maxEvaluation ≤ k := by omega
    rw [Nat.sub_eq_zero_of_le hk]
    exact .refused hk
  | succ calls ih =>
    by_cases hk : k < maxEvaluation
    · obtain ⟨left, hleft⟩ : ∃ left, maxEvaluation - k = left + 1 := ⟨maxEvaluation - k - 1, by omega⟩
      rw [hleft, Stone.evaluate, evaluateWithin]
      apply Counts.entered hk
      apply (counts (k + 1)).node (fun n s => ?_) (fun _ _ => trivial) fun _ => ⟨rfl, .lift _⟩
      have hinner := ih (k := k + 1) (by omega) n s
      rwa [show maxEvaluation - (k + 1) = left by omega] at hinner
    · rw [Nat.sub_eq_zero_of_le (Nat.le_of_not_lt hk)]
      exact .refused (Nat.le_of_not_lt hk)

/-- **Counting is handing down what is left**, and the counter is what it was. -/
theorem evaluate_counts (rounds k : Nat) (n : Node) (s : ScopeId) :
    Counts k (evaluate rounds n s) (Stone.evaluate rounds (maxEvaluation - k) n s) := by
  rw [evaluate]
  exact evaluateWithin_counts rounds (Nat.le_add_right _ k) n s

/-! ## Parsing that counts -/

/-- parsing actions beside a counter -/
abbrev Parsing := Counting ParseError TokenStream

/-- parsing with a counter, in so many calls inside each other as in `evaluateWithin` -/
def parseRuleWithin (g : Grammar) (budget : Nat) : Nat → RuleId → Parsing Node
  | 0, _ => (throw .endless : Stone.Parsing Node)
  | calls + 1, id =>
    guarded maxNesting (do Parsing.fail (.tooDeep (← peek).line))
      (g.parseInside budget (parseRuleWithin g budget calls) id)

def parse (g : Grammar) (id : RuleId) : Parsing Node := do
  parseRuleWithin g ((← get).state.size + 1) (maxNesting + 1) id

section Parsing

variable {g : Grammar} {budget : Nat}

theorem parseMany_counts {begins : Stone.Parsing Bool} {p : Parsing Node} {q : Stone.Parsing Node} (hp : Counts k p q) :
    Counts k (Grammar.parseMany begins p budget) (Grammar.parseMany begins q budget) := by
  induction budget with
  | zero => exact .lift _
  | succ budget ih =>
    apply Counts.bind (.lift begins)
    intro b
    cases b with
    | false => exact .pure []
    | true =>
      apply Counts.bind hp
      intro n
      exact .bind ih fun more => .pure _

theorem climb_counts {table : OperatorTable} {kind : ListKind} {p : Parsing Node} {q : Stone.Parsing Node}
    (hp : Counts k p q) (waiting : Option Precedence) (left : Node) :
    Counts k (Grammar.climb table kind p budget waiting left) (Grammar.climb table kind q budget waiting left) := by
  induction budget generalizing waiting left with
  | zero => exact .lift _
  | succ budget ih =>
    apply Counts.bind (.lift (Grammar.nextOperator table))
    intro o
    cases o with
    | none => exact .pure left
    | some next =>
      by_cases hy : Grammar.yields waiting next = true
      · simp only [hy, if_true]
        apply Counts.bind (.lift read)
        intro op
        apply Counts.bind hp
        intro first
        apply Counts.bind (ih (some next) first)
        intro right
        exact ih waiting _
      · simp only [hy]
        exact .pure left

variable {p : RuleId → Parsing Node} {q : RuleId → Stone.Parsing Node}

theorem parseElement_counts (hp : ∀ id, Counts k (p id) (q id)) (e : Element) :
    Counts k (g.parseElement budget p e) (g.parseElement budget q e) := by
  cases e with
  | rule id => exact .bind (hp id) fun n => .pure [n]
  | choice ids =>
    apply Counts.bind (.lift (Grammar.firstMatch g.canBegin ids))
    intro o
    cases o with
    | none => exact .lift _
    | some id => exact .bind (hp id) fun n => .pure [n]
  | optional id =>
    apply Counts.bind (.lift (g.canBegin id))
    intro b
    cases b with
    | false => exact .pure []
    | true => exact .bind (hp id) fun n => .pure _
  | many id => exact parseMany_counts (hp id)
  | token cls kind =>
    apply Counts.bind (.lift read)
    intro t
    cases cls.accepts t with
    | true => exact .pure _
    | false => exact .lift _
  | literal texts keep =>
    apply Counts.bind (.lift read)
    intro t
    cases texts.any t.isLiteral with
    | true => exact .pure _
    | false => exact .lift _
  | operators id table kind =>
    apply Counts.bind (hp id)
    intro first
    exact .bind (climb_counts (hp id) none first) fun n => .pure [n]

theorem parseElements_counts (hp : ∀ id, Counts k (p id) (q id)) (es : List Element) :
    Counts k (g.parseElements budget p es) (g.parseElements budget q es) := by
  induction es with
  | nil => exact .pure []
  | cons e more ih =>
    apply Counts.bind (parseElement_counts hp e)
    intro first
    exact .bind ih fun others => .pure _

theorem parseRuleWithin_counts {calls : Nat} (hcalls : maxNesting ≤ calls + k) (id : RuleId) :
    Counts k (parseRuleWithin g budget (calls + 1) id) (g.parseRule budget (maxNesting - k) id) := by
  induction calls generalizing k id with
  | zero =>
    have hk : maxNesting ≤ k := by omega
    rw [Nat.sub_eq_zero_of_le hk]
    exact .refused hk
  | succ calls ih =>
    by_cases hk : k < maxNesting
    · obtain ⟨left, hleft⟩ : ∃ left, maxNesting - k = left + 1 := ⟨maxNesting - k - 1, by omega⟩
      rw [hleft, Grammar.parseRule, parseRuleWithin]
      apply Counts.entered hk
      refine .bind (parseElements_counts (fun id => ?_) _) fun ns => .pure _
      have hinner := ih (k := k + 1) (by omega) id
      rwa [show maxNesting - (k + 1) = left by omega] at hinner
    · rw [Nat.sub_eq_zero_of_le (Nat.le_of_not_lt hk)]
      exact .refused (Nat.le_of_not_lt hk)

/-- **So it is for rules.** -/
theorem run_parse (g : Grammar) (k : Nat) (id : RuleId) (s : TokenStream) :
    (parse g id).run ⟨s, k⟩ = withHeld k ((g.parseRule (s.size + 1) (maxNesting - k) id).run s) := by
  have hbegin : (parse g id).run ⟨s, k⟩ = (parseRuleWithin g (s.size + 1) (maxNesting + 1) id).run ⟨s, k⟩ := by
    unfold parse
    rw [EStateM.run_bind]
    simp only [EStateM.run_get]
  rw [hbegin]
  exact parseRuleWithin_counts (Nat.le_add_right _ k) id s

end Parsing

end Counting

/-! ## Fewer levels of evaluation -/

/-- the first action is refused, or the second one does the same -/
def Refusable {α : Type} (p q : Evaluation α) : Prop :=
  ∀ h, (∃ line k, p.run h = .error (.raised (.tooDeep line)) k) ∨ p.run h = q.run h

theorem Refusable.refl {α : Type} (p : Evaluation α) : Refusable p p := fun _ => .inr rfl

/-- nothing catches a refusal -/
theorem Refusable.bind {α β : Type} {p q : Evaluation α} {f g : α → Evaluation β} (hp : Refusable p q)
    (hf : ∀ a, Refusable (f a) (g a)) : Refusable (p >>= f) (q >>= g) := by
  intro h
  rw [EStateM.run_bind, EStateM.run_bind]
  rcases hp h with ⟨line, k, hdeep⟩ | hsame
  · exact .inl ⟨line, k, by rw [hdeep]⟩
  · rw [hsame]
    cases q.run h with
    | error e k => exact .inr rfl
    | ok a k => exact hf a k

theorem refusable : Correspondence (m := Evaluation) (fun p q => Refusable p q) fun _ => True where
  pure _ := .refl _
  bind := .bind
  step _ := .refl _

/-- **Fewer levels only ever refuse.** -/
theorem evaluate_refusable (rounds : Nat) {d d' : Nat} (hd : d ≤ d') (n : Node) (s : ScopeId) :
    Refusable (evaluate rounds d n s) (evaluate rounds d' n s) := by
  induction d generalizing d' n s with
  | zero => exact fun h => .inl ⟨n.line?, h, rfl⟩
  | succ d ih =>
    obtain ⟨d', rfl⟩ : ∃ j, d' = j + 1 := ⟨d' - 1, by omega⟩
    rw [evaluate, evaluate]
    exact refusable.node (ih (Nat.le_of_succ_le_succ hd)) (fun _ _ => trivial) fun _ => ⟨rfl, .refl _⟩

/-! ## Lines that do not scan -/

namespace Language

/-- does a search of so many steps come to an element that looks at the next token -/
def looksWithin (l : Level) : Nat → RuleId → Bool
  | 0, _ => false
  | steps + 1, id =>
    match (elementsAt l id).head? with
    | none => false
    | some (.choice ids) => ids.head?.any (looksWithin l steps)
    | some e => (calls e).all (looksWithin l steps)

/-- does every rule that the element may call look at the next token, or has it been looked at before the call -/
def looksFirst (l : Level) : Element → Bool
  | .choice ids => ids.head?.any fun id => !isEmptyRule l id
  | e => (calls e).all fun id => !isEmptyRule l id

/-- rules that are not empty look at the next token -/
theorem looks_of_elements (l : Level) : ∀ id, isEmptyRule l id = false → looksWithin l 29 id = true :=
  forall_places (by cases l <;> decide +kernel) fun _ h => by cases h

/-- empty rules are alternatives only, and never the first one -/
theorem elements_lookFirst (l : Level) : ∀ id, ∀ e ∈ elementsAt l id, looksFirst l e = true :=
  forall_places (by cases l <;> decide +kernel) fun _ _ h => by cases h

end Language

open Stone.Language

/-- the line that comes next does not scan, and that is what the action ends with -/
def FailsOnLine (s s' : TokenStream) (e : ScanError) {α : Type} (p : Parsing α) : Prop :=
  p.run s = .error (.raised (.scan e)) s'

section BadLine

variable {l : Level} {s s' : TokenStream} {e : ScanError} {α β : Type} {p : Parsing α}

theorem FailsOnLine.bind (hp : FailsOnLine s s' e p) (f : α → Parsing β) : FailsOnLine s s' e (p >>= f) := by
  unfold FailsOnLine at hp ⊢
  rw [EStateM.run_bind, hp]

theorem FailsOnLine.peek (hs : s.peek 0 = (.error e, s')) : FailsOnLine s s' e Parsing.peek := by
  unfold FailsOnLine
  rw [run_peek_eq, hs]

theorem FailsOnLine.read (hs : s.peek 0 = (.error e, s')) : FailsOnLine s s' e Parsing.read := by
  unfold FailsOnLine
  rw [run_read_eq, hs]

theorem FailsOnLine.firstMatch {begins : RuleId → Parsing Bool} {ids : List RuleId} (looks : RuleId → Bool)
    (h : ∀ id, looks id = true → FailsOnLine s s' e (begins id)) (hids : ids.head?.any looks = true) :
    FailsOnLine s s' e (Grammar.firstMatch begins ids) := by
  cases ids with
  | nil => cases hids
  | cons id more => exact (h id hids).bind _

theorem canBeginWithin_failsOnLine (hs : s.peek 0 = (.error e, s')) {steps k : Nat} {id : RuleId} (hk : k ≤ steps)
    (hlooks : looksWithin l k id = true) : FailsOnLine s s' e (l.grammar.canBeginWithin steps id) := by
  induction k generalizing steps id with
  | zero => cases hlooks
  | succ k ih =>
    obtain ⟨steps, rfl⟩ : ∃ j, steps = j + 1 := ⟨steps - 1, by omega⟩
    have hinner : ∀ id, looksWithin l k id = true → FailsOnLine s s' e (l.grammar.canBeginWithin steps id) :=
      fun id => ih (Nat.le_of_succ_le_succ hk)
    unfold looksWithin at hlooks
    unfold Grammar.canBeginWithin
    rw [elements_eq]
    cases hes : elementsAt l id with
    | nil => rw [hes] at hlooks; cases hlooks
    | cons first more =>
      rw [hes] at hlooks
      cases first with
      | rule first | optional first | many first | operators first _ _ =>
        exact hinner first (by simpa [calls] using hlooks)
      | choice ids => exact FailsOnLine.bind (.firstMatch _ hinner hlooks) _
      | token cls kind => exact FailsOnLine.bind (.peek hs) _
      | literal texts keep => exact FailsOnLine.bind (.peek hs) _

theorem canBegin_failsOnLine (hs : s.peek 0 = (.error e, s')) {k : Nat} {id : RuleId} (hk : k ≤ 29)
    (hlooks : looksWithin l k id = true) : FailsOnLine s s' e (l.grammar.canBegin id) := by
  unfold Grammar.canBegin
  rw [size_eq]
  exact canBeginWithin_failsOnLine hs hk hlooks

/-- a rule that looks at the next token has the error of its line, however many levels it has left -/
theorem parseRule_failsOnLine (hs : s.peek 0 = (.error e, s')) {budget k n : Nat} {id : RuleId} (hk : k ≤ 29)
    (hlooks : looksWithin l k id = true) : FailsOnLine s s' e (l.grammar.parseRule (budget + 1) n id) := by
  induction k generalizing n id with
  | zero => cases hlooks
  | succ k ih =>
    cases n with
    | zero => exact FailsOnLine.bind (.peek hs) _
    | succ n =>
      have hinner : ∀ id, looksWithin l k id = true → FailsOnLine s s' e (l.grammar.parseRule (budget + 1) n id) :=
        fun id => ih (Nat.le_of_succ_le hk)
      have hask : ∀ id, looksWithin l k id = true → FailsOnLine s s' e (l.grammar.canBegin id) :=
        fun id => canBegin_failsOnLine hs (Nat.le_of_succ_le hk)
      unfold looksWithin at hlooks
      rw [Grammar.parseRule, Grammar.parseInside, elements_eq]
      cases hes : elementsAt l id with
      | nil => rw [hes] at hlooks; cases hlooks
      | cons first more =>
        rw [hes] at hlooks
        apply FailsOnLine.bind
        apply FailsOnLine.bind
        cases first with
        | rule first | operators first _ _ => exact (hinner first (by simpa [calls] using hlooks)).bind _
        | optional first | many first => exact (hask first (by simpa [calls] using hlooks)).bind _
        | choice ids => exact FailsOnLine.bind (.firstMatch _ hask hlooks) _
        | token cls kind => exact FailsOnLine.bind (.read hs) _
        | literal texts keep => exact FailsOnLine.bind (.read hs) _

/-- a stream shows an error if that is what comes next -/
theorem peek_error_of_content {rest : List Entry} (hs : s.content = .error e :: rest) :
    ∃ u, s.peek 0 = (.error e, u) := by
  have h := peek_content 0 s
  rw [hs, look_error] at h
  rcases hp : s.peek 0 with ⟨answer, u⟩
  rw [hp] at h
  obtain ⟨rfl, -⟩ := Prod.mk.inj h
  exact ⟨u, rfl⟩

theorem content_of_peek_error (hs : s.peek 0 = (.error e, s')) : s.content = .error e :: s'.content := by
  have h := peek_content 0 s
  rw [hs] at h
  rcases hc : s.content with _ | ⟨bad | t, rest⟩ <;> rw [hc] at h <;> simp [look] at h
  obtain ⟨rfl, hrest⟩ := h
  rw [hrest]

/-- after a choice that asks a rule that looks, the next line has been looked at -/
theorem looked_of_firstMatch {ids : List RuleId} {o : Option RuleId} {u : TokenStream}
    (hids : (ids.head?.any fun id => !isEmptyRule l id) = true)
    (hr : (Grammar.firstMatch l.grammar.canBegin ids).run s = .ok o u) : ∃ t v, u.peek 0 = (.ok t, v) := by
  obtain ⟨-, hc⟩ := (Grammar.sees_firstMatch (Grammar.sees_canBegin l.grammar s.content) ids).ok rfl hr
  rcases hp : u.peek 0 with ⟨e | t, v⟩
  · -- the choice would have met the error
    have hcontent := content_of_peek_error hp
    rw [hc] at hcontent
    obtain ⟨w, hw⟩ := peek_error_of_content hcontent
    have hfails : FailsOnLine s w e (Grammar.firstMatch l.grammar.canBegin ids) := by
      apply FailsOnLine.firstMatch (fun id => !isEmptyRule l id) _ hids
      intro id hid
      exact canBegin_failsOnLine hw (Nat.le_refl 29) (looks_of_elements l id (by simpa using hid))
    rw [FailsOnLine, hr] at hfails
    cases hfails
  · exact ⟨t, v, rfl⟩

end BadLine

/-! ## Fewer levels of rules -/

/-- the first run is refused, or is taken to be endless, or both end in the same way -/
inductive RefusableEnds {α β : Type} (V : α → β → Prop) : Ending α → Ending β → Prop
  | tooDeep {line : Nat} {s : TokenStream} {r : Ending β} : RefusableEnds V (.error (.raised (.tooDeep line)) s) r
  | endless {s : TokenStream} {r : Ending β} : RefusableEnds V (.error .endless s) r
  | ok {a : α} {b : β} {s : TokenStream} : V a b → RefusableEnds V (.ok a s) (.ok b s)
  | error {e : Stop ParseError} {s : TokenStream} : RefusableEnds V (.error e s) (.error e s)

theorem RefusableEnds.refl {α : Type} {V : α → α → Prop} (hV : ∀ a, V a a) (r : Ending α) : RefusableEnds V r r := by
  cases r with
  | ok a s => exact .ok (hV a)
  | error e s => exact .error

theorem RefusableEnds.bind {α β γ δ : Type} {V : α → β → Prop} {W : γ → δ → Prop} {p : Parsing α} {q : Parsing β}
    {f : α → Parsing γ} {g : β → Parsing δ} {s : TokenStream} (hp : RefusableEnds V (p.run s) (q.run s))
    (hf : ∀ a b u, p.run s = .ok a u → V a b → RefusableEnds W ((f a).run u) ((g b).run u)) :
    RefusableEnds W ((p >>= f).run s) ((q >>= g).run s) := by
  rw [EStateM.run_bind, EStateM.run_bind]
  generalize hr : p.run s = r at hp
  generalize q.run s = r' at hp
  cases hp with
  | tooDeep => exact .tooDeep
  | endless => exact .endless
  | ok hab => exact hf _ _ _ hr hab
  | error => exact .error

/-- on every stream -/
def RefusableParsing {α β : Type} (V : α → β → Prop) (p : Parsing α) (q : Parsing β) : Prop :=
  ∀ s, RefusableEnds V (p.run s) (q.run s)

theorem RefusableParsing.refl {α : Type} {V : α → α → Prop} (hV : ∀ a, V a a) (p : Parsing α) :
    RefusableParsing V p p := fun _ => .refl hV _

theorem refusableParsing : Comparison RefusableParsing where
  pure h := fun _ => .ok h
  bind hp hf _ := .bind (hp _) fun a b u _ hab => hf a b hab u
  endless _ _ := .endless
  stuck _ := .bind (V := Eq) (.refl (fun _ => rfl) _) fun _ _ _ _ hab => by rw [hab]; exact .error
  tooDeep _ := .bind (V := Eq) (.refl (fun _ => rfl) _) fun _ _ _ _ _ => .tooDeep

section Rules

variable {l : Level} {budget n n' : Nat}

/-- equal trees, as comparisons have it -/
abbrev EqualTree : Node → Node → Prop := SameTree id

abbrev EqualTrees : List Node → List Node → Prop := SameTrees id

/-- rules that are not empty, or that are called where the next line has been looked at -/
def Prepared (l : Level) (id : RuleId) (s : TokenStream) : Prop :=
  isEmptyRule l id = false ∨ ∃ t u, s.peek 0 = (.ok t, u)

theorem parseElement_refusable {parse parse' : RuleId → Parsing Node}
    (hp : ∀ id s, Prepared l id s → RefusableEnds (EqualTree) ((parse id).run s) ((parse' id).run s)) {e : Element}
    (he : looksFirst l e = true) :
    RefusableParsing (EqualTrees) (l.grammar.parseElement budget parse e)
      (l.grammar.parseElement budget parse' e) := by
  by_cases hchoice : ∃ ids, e = .choice ids
  · obtain ⟨ids, rfl⟩ := hchoice
    intro s
    apply RefusableEnds.bind (V := Eq) (.refl (fun _ => rfl) _)
    rintro o _ u hr rfl
    cases o with
    | none => exact refusableParsing.stuck u
    | some id =>
      apply RefusableEnds.bind (hp id u (.inr (looked_of_firstMatch he hr)))
      intro m m' v _ hm
      exact .ok (.one hm)
  · have hcalls : ∀ id ∈ calls e, isEmptyRule l id = false := by
      intro id hid
      cases e with
      | choice ids => exact absurd ⟨ids, rfl⟩ hchoice
      | _ =>
        have := List.all_eq_true.1 he id hid
        simpa using this
    apply refusableParsing.parseElement (fun _ _ => .refl (fun _ => rfl) _)
    · intro id hid s
      exact hp id s (.inl (hcalls id hid))
    · intro htakes
      cases e with
      | token cls kind => exact .refl (V := EqualTrees) (fun _ => rfl) _
      | literal texts keep => exact .refl (V := EqualTrees) (fun _ => rfl) _
      | _ => cases htakes
    · intro _ table _ _ waiting
      exact .refl (V := SameOperator id) (fun _ => rfl) _
    · exact .inl (Nat.le_refl budget)

/-- one more level on both sides -/
theorem parseRule_succ_refusable
    (hp : ∀ id s, Prepared l id s →
      RefusableEnds (EqualTree) ((l.grammar.parseRule budget n id).run s) ((l.grammar.parseRule budget n' id).run s))
    (id : RuleId) :
    RefusableParsing (EqualTree) (l.grammar.parseRule budget (n + 1) id) (l.grammar.parseRule budget (n' + 1) id) := by
  apply refusableParsing.parseRule rfl
  apply refusableParsing.parseElements
  intro e he
  rw [elements_eq] at he
  exact parseElement_refusable hp (elements_lookFirst l id e he)

/-- a refused rule looks at the next token, and so does the rule when it is not refused -/
theorem refused_refusable {id : RuleId} {s : TokenStream} (hs : Prepared l id s) :
    RefusableEnds (EqualTree) ((l.grammar.parseRule (budget + 1) 0 id).run s)
      ((l.grammar.parseRule (budget + 1) n id).run s) := by
  rcases hp : s.peek 0 with ⟨e | t, u⟩
  · have hid : isEmptyRule l id = false := by
      apply hs.resolve_right
      rintro ⟨t, v, ht⟩
      rw [hp] at ht
      cases ht
    have hlooks := looks_of_elements l id hid
    have hleft : FailsOnLine s u e (l.grammar.parseRule (budget + 1) 0 id) :=
      parseRule_failsOnLine hp (Nat.le_refl 29) hlooks
    have hright : FailsOnLine s u e (l.grammar.parseRule (budget + 1) n id) :=
      parseRule_failsOnLine hp (Nat.le_refl 29) hlooks
    rw [hleft, hright]
    exact .error
  · rw [Grammar.parseRule, EStateM.run_bind, run_peek_eq, hp]
    exact .tooDeep

/-- **Fewer levels only ever refuse**, on every stream. -/
theorem parseRule_refusable (hn : n ≤ n') (id : RuleId) (s : TokenStream) (hs : Prepared l id s) :
    RefusableEnds (EqualTree) ((l.grammar.parseRule (budget + 1) n id).run s)
      ((l.grammar.parseRule (budget + 1) n' id).run s) := by
  induction n generalizing n' id s with
  | zero => exact refused_refusable hs
  | succ n ih =>
    obtain ⟨n', rfl⟩ : ∃ j, n' = j + 1 := ⟨n' - 1, by omega⟩
    exact parseRule_succ_refusable (fun id s => ih (Nat.le_of_succ_le_succ hn) id s) id s

/-- a rule that is entered is refused further down, or is parsed as with more levels -/
theorem run_parseRule_refusable (h0 : 0 < n) (hn : n ≤ n') (id : RuleId) {s : TokenStream} (hs : s.size < budget + 1) :
    (∃ line u, (l.grammar.parseRule (budget + 1) n id).run s = .error (.raised (.tooDeep line)) u) ∨
      (l.grammar.parseRule (budget + 1) n id).run s = (l.grammar.parseRule (budget + 1) n' id).run s := by
  obtain ⟨n, rfl⟩ : ∃ j, n = j + 1 := ⟨n - 1, by omega⟩
  obtain ⟨n', rfl⟩ : ∃ j, n' = j + 1 := ⟨n' - 1, by omega⟩
  have hends : RefusableEnds EqualTree ((l.grammar.parseRule (budget + 1) (n + 1) id).run s)
      ((l.grammar.parseRule (budget + 1) (n' + 1) id).run s) :=
    parseRule_succ_refusable (fun id s => parseRule_refusable (Nat.le_of_succ_le_succ hn) id s) id s
  have hnever := parseRule_ends l (n + 1) id hs
  generalize (l.grammar.parseRule (budget + 1) (n + 1) id).run s = r at hends hnever
  generalize (l.grammar.parseRule (budget + 1) (n' + 1) id).run s = r' at hends
  cases hends with
  | tooDeep => exact .inl ⟨_, _, rfl⟩
  | endless => exact absurd rfl (hnever _)
  | ok hsame => exact .inr (by rw [hsame.eq])
  | error => exact .inr rfl

end Rules

/-! ## Levels held at the start -/

open Counting

/-- **Depth that is held already only ever refuses.** A run that starts with `k` levels held goes too deep, or it ends as
it does from no level held, with the same value or error and the same heap, or the same tree or error and the same
stream. The counter is `k` again whatever it ends with. From no level held the counter changes nothing. -/
theorem held_depth_only_refuses (l : Level) :
    (∀ (rounds : Nat) (n : Node) (s : ScopeId) (h : Heap) (k : Nat),
      (Counting.evaluate rounds n s).run ⟨h, 0⟩ = withHeld 0 ((evaluate rounds maxEvaluation n s).run h) ∧
        ((∃ line h', (Counting.evaluate rounds n s).run ⟨h, k⟩ = .error (.raised (.tooDeep line)) ⟨h', k⟩) ∨
          (Counting.evaluate rounds n s).run ⟨h, k⟩ = withHeld k ((evaluate rounds maxEvaluation n s).run h))) ∧
      ∀ (id : RuleId) (s : TokenStream) (k : Nat), k < maxNesting →
        (Counting.parse l.grammar id).run ⟨s, 0⟩ = withHeld 0 ((l.grammar.parse id).run s) ∧
          ((∃ line s', (Counting.parse l.grammar id).run ⟨s, k⟩ = .error (.raised (.tooDeep line)) ⟨s', k⟩) ∨
            (Counting.parse l.grammar id).run ⟨s, k⟩ = withHeld k ((l.grammar.parse id).run s)) := by
  constructor
  · intro rounds n s h k
    refine ⟨evaluate_counts rounds 0 n s h, ?_⟩
    rw [evaluate_counts rounds k n s h]
    rcases evaluate_refusable rounds (Nat.sub_le maxEvaluation k) n s h with ⟨line, h', hdeep⟩ | hsame
    · exact .inl ⟨line, h', by rw [hdeep]; rfl⟩
    · exact .inr (by rw [hsame])
  · intro id s k hk
    refine ⟨by rw [Counting.run_parse, Nat.sub_zero, Stone.run_parse], ?_⟩
    rw [Counting.run_parse, Stone.run_parse]
    rcases run_parseRule_refusable (Nat.sub_pos_of_lt hk) (Nat.sub_le maxNesting k) id (Nat.lt_succ_self s.size) with
      ⟨line, s', hdeep⟩ | hsame
    · exact .inl ⟨line, s', by rw [hdeep]; rfl⟩
    · exact .inr (by rw [hsame])

/-- a number in parentheses, and what comes of it with nearly all levels held: an error, and the counter as it was -/
theorem held_depth_refuses_group :
    let group := ofTokens [Token.identifier 1 "(", ⟨1, .number .one⟩, Token.identifier 1 ")"]
    let run := fun k => (Counting.parse Language.basic.grammar Place.expression).run ⟨group, k⟩
    (∃ n, run 0 = .ok n ⟨ofTokens [], 0⟩ ∧ run 1400 = .ok n ⟨ofTokens [], 1400⟩) ∧
      (∃ s, run 1496 = .error (.raised (.tooDeep 1)) ⟨s, 1496⟩) ∧
      (1496 < maxNesting ∧ run 0 = withHeld 0 ((Language.basic.grammar.parse Place.expression).run group) ∧
        ((∃ line s', run 1496 = .error (.raised (.tooDeep line)) ⟨s', 1496⟩) ∨
          run 1496 = withHeld 1496 ((Language.basic.grammar.parse Place.expression).run group))) :=
  ⟨⟨_, rfl, rfl⟩, ⟨_, rfl⟩, by decide, (held_depth_only_refuses .basic).2 _ _ 1496 (by decide)⟩

/-- evaluation of a negation takes two levels -/
example :
    let negation := Node.list .negative [.leaf .number ⟨1, .number .one⟩]
    let run := fun k => (Counting.evaluate 0 negation 0).run ⟨Heap.empty, k⟩
    run 2998 = .ok (.number Decimal.one.neg) ⟨Heap.empty, 2998⟩ ∧
      run 2999 = .error (.raised (.tooDeep (some 1))) ⟨Heap.empty, 2999⟩ := ⟨rfl, rfl⟩

end Stone
