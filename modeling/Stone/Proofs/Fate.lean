/-
What becomes of parsing on the lines that are there, before it is known what follows them. An action may have all that
it needs, and then what follows makes no difference: it succeeds or fails now. Otherwise it waits: it looks past the
lines, and then some marks can be added after which it succeeds. There is no fourth case, as long as everything that can
be left open at the end of a line can be closed.

The marks are braces and closing parentheses. What follows them must not be taken for a part of what they close, so a
waiting action says which tokens leave it alone (`calm`).

- `Fate.bind`: one action after another.
- `Language.many_fate`, `Language.climb_fate`: repetitions and operator chains, from the fates of their parts.
- `Language.element_fate`: every element of a rule, from the fates of the rules that it calls.
-/
import Stone.Proofs.Ahead

namespace Stone

open TokenStream Parsing Grammar

/-! ## Fates -/

/-- a mark that closes something, on a line -/
def Closer (line : Nat) (t : Token) : Prop := ∃ text ∈ ["\x7d", ")", "\x7b"], t = Token.identifier line text

/-- the error of a text that ends inside a statement -/
def Stop.isUnexpectedEnd : Stop ParseError → Bool
  | .raised e => e.isUnexpectedEnd
  | .endless => false

section Fates

variable {ι κ α β : Type}

/-- on a stream that shows these tokens the action succeeds, whatever follows, and leaves these -/
def Passes (p : ι → Parsing α) (ts : List Token) (a : α) (left : List Token) : Prop :=
  ∀ i s later, Ahead s ts later → ∃ s', (p i).run s = .ok a s' ∧ Ahead s' left later

/-- the action fails, whatever follows -/
def Fails (p : ι → Parsing α) (ts : List Token) (e : Stop ParseError) : Prop :=
  ∀ i s later, Ahead s ts later → ∃ s', (p i).run s = .error e s'

/-- the action looks at what follows -/
def LooksPast (p : ι → Parsing α) (ts : List Token) : Prop :=
  ∀ i s e later, Ahead s ts (.error e :: later) → ∃ s', (p i).run s = .error (.raised (.scan e)) s'

/-- what becomes of an action on these tokens. It comes in versions `p i`, which differ in budgets that do not matter,
and `reads` says what it is meant to read. -/
inductive Fate (line : Nat) (p : ι → Parsing α) (reads : List Token → α → List Token → Prop) (calm : Token → Prop)
    (ts : List Token) : Prop
  | passes (a : α) (left : List Token) : left ≠ [] → Passes p ts a left →
      (∀ tail, reads (ts ++ tail) a (left ++ tail)) → Fate line p reads calm ts
  | fails (e : Stop ParseError) : e.isUnexpectedEnd = false → Fails p ts e → Fate line p reads calm ts
  | waits (cut : List Token) (a : α) : (∀ t ∈ cut, Closer line t) → LooksPast p ts →
      (∀ tail, calm (front tail) → reads (ts ++ (cut ++ tail)) a tail) → Fate line p reads calm ts

variable {line : Nat} {p : ι → Parsing α} {q : ι → α → Parsing β} {ts : List Token}
  {reads : List Token → α → List Token → Prop} {calm : Token → Prop}

namespace Fate

/-- some of the versions -/
theorem reindex (h : Fate line p reads calm ts) (f : κ → ι) : Fate line (fun i => p (f i)) reads calm ts := by
  cases h with
  | passes a left hne hp hd => exact .passes a left hne (fun i s later hs => hp (f i) s later hs) hd
  | fails e he hf => exact .fails e he fun i s later hs => hf (f i) s later hs
  | waits cut a hcut hl hd => exact .waits cut a hcut (fun i s e later hs => hl (f i) s e later hs) hd

/-- fewer tokens that leave it alone -/
theorem calmer (h : Fate line p reads calm ts) {calm' : Token → Prop} (hc : ∀ t, calm' t → calm t) :
    Fate line p reads calm' ts := by
  cases h with
  | passes a left hne hp hd => exact .passes a left hne hp hd
  | fails e he hf => exact .fails e he hf
  | waits cut a hcut hl hd => exact .waits cut a hcut hl fun tail ht => hd tail (hc _ ht)

/-- more that it is meant to read -/
theorem imp (h : Fate line p reads calm ts) {reads' : List Token → α → List Token → Prop}
    (hr : ∀ tail a rest, reads (ts ++ tail) a rest → reads' (ts ++ tail) a rest) : Fate line p reads' calm ts := by
  cases h with
  | passes a left hne hp hd => exact .passes a left hne hp fun tail => hr _ _ _ (hd tail)
  | fails e he hf => exact .fails e he hf
  | waits cut a hcut hl hd => exact .waits cut a hcut hl fun tail ht => hr _ _ _ (hd tail ht)

/-- what an action gives, changed -/
theorem map (h : Fate line p reads calm ts) (f : α → β) {reads' : List Token → β → List Token → Prop}
    (hr : ∀ tail a rest, reads (ts ++ tail) a rest → reads' (ts ++ tail) (f a) rest) :
    Fate line (fun i => do return f (← p i)) reads' calm ts := by
  cases h with
  | passes a left hne hp hd =>
    refine .passes (f a) left hne (fun i s later hs => ?_) fun tail => hr _ _ _ (hd tail)
    obtain ⟨s', hs1, hs2⟩ := hp i s later hs
    exact ⟨s', by rw [EStateM.run_bind, hs1]; rfl, hs2⟩
  | fails e he hf =>
    refine .fails e he fun i s later hs => ?_
    obtain ⟨s', hs⟩ := hf i s later hs
    exact ⟨s', by rw [EStateM.run_bind, hs]⟩
  | waits cut a hcut hl hd =>
    refine .waits cut (f a) hcut (fun i s e later hs => ?_) fun tail ht => hr _ _ _ (hd tail ht)
    obtain ⟨s', hs⟩ := hl i s e later hs
    exact ⟨s', by rw [EStateM.run_bind, hs]⟩

/-- an action that passes, and then another one -/
theorem of_passes (reads' : List Token → β → List Token → Prop) {a : α} {left : List Token} (hp : Passes p ts a left)
    {calm' : Token → Prop} {reads'' : List Token → β → List Token → Prop}
    (h : Fate line (fun i => q i a) reads' calm' left)
    (hr : ∀ tail b rest, reads' (left ++ tail) b rest → reads'' (ts ++ tail) b rest) :
    Fate line (fun i => do q i (← p i)) reads'' calm' ts := by
  cases h with
  | passes b left' hne' hp' hd' =>
    refine .passes b left' hne' (fun i s later hs => ?_) fun tail => hr _ _ _ (hd' tail)
    obtain ⟨s1, hs1, ha1⟩ := hp i s later hs
    obtain ⟨s2, hs2, ha2⟩ := hp' i s1 later ha1
    exact ⟨s2, by rw [EStateM.run_bind, hs1]; exact hs2, ha2⟩
  | fails e he hf =>
    refine .fails e he fun i s later hs => ?_
    obtain ⟨s1, hs1, ha1⟩ := hp i s later hs
    obtain ⟨s2, hs2⟩ := hf i s1 later ha1
    exact ⟨s2, by rw [EStateM.run_bind, hs1]; exact hs2⟩
  | waits cut b hcut hl hd' =>
    refine .waits cut b hcut (fun i s e later hs => ?_) fun tail ht => hr _ _ _ (hd' tail ht)
    obtain ⟨s1, hs1, ha1⟩ := hp i s _ hs
    obtain ⟨s2, hs2⟩ := hl i s1 e later ha1
    exact ⟨s2, by rw [EStateM.run_bind, hs1]; exact hs2⟩

/-- **One action after another.** The second goes on where the first passes. Where the first waits, there have to be
marks that close the second from nothing and leave the first alone. -/
theorem bind (reads' : α → List Token → β → List Token → Prop) {calm' : Token → Prop}
    {reads'' : List Token → β → List Token → Prop} (h : Fate line p reads calm ts) (hend : calm Token.inputEnd)
    (hq : ∀ a left, left ≠ [] → reads ts a left → Fate line (fun i => q i a) (reads' a) calm' left)
    (hclose : ∀ ts a rest, reads ts a rest → ∃ cut b, (∀ t ∈ cut, Closer line t) ∧
      ∀ tail, calm' (front tail) → calm (front (cut ++ tail)) ∧ reads' a (cut ++ tail) b tail)
    (hr : ∀ tail a mid b rest, reads (ts ++ tail) a mid → reads' a mid b rest → reads'' (ts ++ tail) b rest) :
    Fate line (fun i => do q i (← p i)) reads'' calm' ts := by
  cases h with
  | passes a left hne hp hd =>
    have hleft : reads ts a left := by simpa using hd []
    exact of_passes _ hp (hq a left hne hleft) fun tail b rest => hr tail a _ b rest (hd tail)
  | fails e he hf =>
    refine .fails e he fun i s later hs => ?_
    obtain ⟨s', hs⟩ := hf i s later hs
    exact ⟨s', by rw [EStateM.run_bind, hs]⟩
  | waits cut a hcut hl hd =>
    obtain ⟨cut', b, hcut', hclosed⟩ := hclose _ a _ (hd [] hend)
    refine .waits (cut ++ cut') b ?_ (fun i s e later hs => ?_) fun tail ht => ?_
    · exact fun t ht => (List.mem_append.1 ht).elim (hcut t) (hcut' t)
    · obtain ⟨s', hs⟩ := hl i s e later hs
      exact ⟨s', by rw [EStateM.run_bind, hs]⟩
    · obtain ⟨hcalm, hread⟩ := hclosed tail ht
      rw [List.append_assoc]
      exact hr _ _ _ _ _ (hd (cut' ++ tail) hcalm) hread

/-- a question whose answer is the same whatever follows -/
theorem ask {question : Parsing α} {x : α} (hb : Built question) (hne : ts ≠ [])
    (hx : question.run (ofTokens ts) = .ok x (ofTokens ts)) {reads' : List Token → β → List Token → Prop}
    (h : Fate line (fun i => q i x) reads' calm ts) : Fate line (fun i => do q i (← question)) reads' calm ts :=
  of_passes (p := fun _ => question) _ (fun _ _ _ hs => hb.ahead hx hne hs) h fun _ _ _ hr => hr

/-- the next token is there -/
theorem read {k : ι → Token → Parsing β} {t : Token} (reads' : List Token → β → List Token → Prop)
    {reads'' : List Token → β → List Token → Prop} (h : Fate line (fun i => k i t) reads' calm ts)
    (hr : ∀ tail b rest, reads' (ts ++ tail) b rest → reads'' (t :: ts ++ tail) b rest) :
    Fate line (fun i => do k i (← Parsing.read)) reads'' calm (t :: ts) :=
  of_passes (p := fun _ => Parsing.read) _ (fun _ _ _ hs => hs.run_read) h hr

theorem pure (hne : ts ≠ []) {a : α} (hr : ∀ tail, reads (ts ++ tail) a (ts ++ tail)) :
    Fate line (fun _ : ι => (Pure.pure a : Parsing α)) reads calm ts :=
  .passes a ts hne (fun _ s _ hs => ⟨s, rfl, hs⟩) hr

theorem fail {e : ParseError} (he : e.isUnexpectedEnd = false) :
    Fate line (fun _ : ι => (Parsing.fail e : Parsing α)) reads calm ts :=
  .fails (.raised e) he fun _ s _ _ => ⟨s, rfl⟩

end Fate

end Fates

namespace Language

/-! ## Questions have answers -/

/-- does the search for the first token of a rule end within so many steps, whatever the token is -/
def settles (elements : RuleId → List Element) : Nat → RuleId → Bool
  | 0, _ => false
  | steps + 1, id =>
    match elements id with
    | .rule id :: _ | .optional id :: _ | .many id :: _ | .operators id _ _ :: _ => settles elements steps id
    | .choice ids :: _ => ids.all (settles elements steps)
    | _ => true

theorem firstThat_answered {begins : RuleId → Option Bool} {ids : List RuleId}
    (h : ∀ id ∈ ids, ∃ b, begins id = some b) : ∃ o, firstThat begins ids = some o := by
  induction ids with
  | nil => exact ⟨none, rfl⟩
  | cons id ids ih =>
    obtain ⟨⟨b, hb⟩, hids⟩ := List.forall_mem_cons.1 h
    rw [firstThat_cons hb]
    cases b with
    | true => exact ⟨some id, rfl⟩
    | false => exact ih hids

theorem beginsWithin_answered {g : Grammar} (t : Token) {steps : Nat} {id : RuleId}
    (h : settles (fun id => (g.rule id).elements) steps id = true) : ∃ b, g.beginsWithin t steps id = some b := by
  induction steps generalizing id with
  | zero => cases h
  | succ steps ih =>
    rw [settles] at h
    rw [beginsWithin]
    cases hes : (g.rule id).elements with
    | nil => exact ⟨true, rfl⟩
    | cons e es =>
      rw [hes] at h
      cases e with
      | choice ids =>
        obtain ⟨o, ho⟩ := firstThat_answered fun id hid => ih (List.all_eq_true.1 h id hid)
        exact ⟨o.isSome, congrArg (Option.map Option.isSome) ho⟩
      | token cls kind => exact ⟨_, rfl⟩
      | literal texts keep => exact ⟨_, rfl⟩
      | _ => exact ih h

variable {l : Level} {line n : Nat} {ts : List Token}

theorem begins_answered (l : Level) (t : Token) (id : RuleId) : ∃ b, l.grammar.begins t id = some b := by
  rw [begins_eq]
  refine beginsWithin_answered t ?_
  rw [funext (elements_eq l)]
  have hall : ∀ id < 28, settles (elementsAt l) 29 id = true := by
    cases l <;> decide
  rcases Nat.lt_or_ge id 28 with hid | hid
  · exact hall id hid
  · obtain ⟨k, rfl⟩ := Nat.exists_eq_add_of_le' hid
    rfl

theorem chosen_answered (l : Level) (t : Token) (ids : List RuleId) : ∃ o, l.grammar.chosen t ids = some o :=
  firstThat_answered fun id _ => begins_answered l t id

/-! ## Repetitions and chains -/

/-- budgets that are enough for these tokens -/
abbrev Room (ts : List Token) := {budget : Nat // ts.length < budget}

/-- what is enough for some tokens is enough for fewer -/
def Room.fewer {us : List Token} (h : us.length ≤ ts.length) (b : Room ts) : Room us := ⟨b.1, by have := b.2; omega⟩

/-- after a step there are fewer tokens, and less is enough -/
def Room.pred {us : List Token} (h : us.length < ts.length) (b : Room ts) : Room us := ⟨b.1 - 1, by have := b.2; omega⟩

/-- the fate of a rule, with tokens after it that leave it alone -/
abbrev RuleFate (l : Level) (line n : Nat) (id : RuleId) (calm : Token → Prop) (ts : List Token) : Prop :=
  Fate line (fun b : Room ts => l.grammar.parseRule b.1 n id)
    (fun ts m rest => Derives l.grammar n (.rule id) ts [m] rest) calm ts

theorem parseMany_eq {budget : Nat} (ask : Parsing Bool) (parse : Parsing Node) (h : 0 < budget) :
    parseMany ask parse budget = do
      if ← ask then
        let m ← parse
        let more ← parseMany ask parse (budget - 1)
        return if m.isVacuous then more else m :: more
      else return [] := by
  obtain ⟨k, rfl⟩ := Nat.exists_eq_add_of_le' h
  rfl

theorem climb_eq {budget : Nat} (table : OperatorTable) (kind : ListKind) (operand : Parsing Node)
    (waiting : Option Precedence) (left : Node) (h : 0 < budget) :
    climb table kind operand budget waiting left = do
      match ← nextOperator table with
      | none => return left
      | some p =>
        if yields waiting p then
          let op ← read
          let first ← operand
          let right ← climb table kind operand (budget - 1) (some p) first
          climb table kind operand (budget - 1) waiting (kind.build [left, .leaf .mark op, right])
        else return left := by
  obtain ⟨k, rfl⟩ := Nat.exists_eq_add_of_le' h
  rfl

theorem climb_stops {g : Grammar} {id : RuleId} {table : OperatorTable} {kind : ListKind} {waiting : Option Precedence}
    {left : Node} (h : operatorOf table (front ts) = none) :
    Derives g n (.climb id table kind waiting left) ts [left] ts := by
  refine .climbStop fun p hp => ?_
  rw [h] at hp
  cases hp

/-- after an operator and the operand `first`: the right side of the operator, and then the rest of the chain -/
def Onward (g : Grammar) (n : Nat) (id : RuleId) (table : OperatorTable) (kind : ListKind) (waiting : Option Precedence)
    (left : Node) (op : Token) (p : Precedence) (first : Node) (ts : List Token) (m : Node)
    (rest : List Token) : Prop :=
  ∃ right after, Derives g n (.climb id table kind (some p) first) ts [right] after ∧
    Derives g n (.climb id table kind waiting (kind.build [left, .leaf .mark op, right])) after [m] rest

theorem not_lineEnd_of_operator {table : OperatorTable} {t : Token} {p : Precedence} (h : operatorOf table t = some p) :
    t.lexeme ≠ .lineEnd := by
  intro ht
  rw [operatorOf, ht] at h
  cases h

section Rule

variable {id : RuleId} {calm : Token → Prop} (hrule : ∀ ts, Lined ts → ts ≠ [] → RuleFate l line n id calm ts)
  (hend : calm Token.inputEnd)

include hrule hend

/-- a repetition: every round passes, or one fails or waits. Each round takes a token, so the induction is on their
number. -/
theorem many_fate (hsteady : (Element.many id).Steady l.grammar) (hl : Lined ts) (hne : ts ≠ []) :
    Fate line (fun b : Room ts × Room ts => parseMany (l.grammar.canBegin id) (l.grammar.parseRule b.1.1 n id) b.2.1)
      (Derives l.grammar n (.many id)) (fun t => calm t ∧ l.grammar.begins t id = some false) ts := by
  obtain ⟨k, hk⟩ : ∃ k, ts.length < k := ⟨_, Nat.lt_succ_self _⟩
  induction k generalizing ts with
  | zero => cases hk
  | succ k ih =>
  have hstep : (fun b : Room ts × Room ts =>
      parseMany (l.grammar.canBegin id) (l.grammar.parseRule b.1.1 n id) b.2.1) = fun b => do
        if ← l.grammar.canBegin id then
          let m ← l.grammar.parseRule b.1.1 n id
          let more ← parseMany (l.grammar.canBegin id) (l.grammar.parseRule b.1.1 n id) (b.2.1 - 1)
          return if m.isVacuous then more else m :: more
        else return [] := funext fun b => parseMany_eq _ _ (Nat.zero_lt_of_lt b.2.2)
  rw [hstep]
  obtain ⟨x, hx⟩ := begins_answered l (front ts) id
  refine .ask (l.grammar.built_canBegin id) hne (by rw [run_canBegin, hx]; rfl) ?_
  cases x with
  | false => exact .pure hne fun tail => .manyNil (by rwa [front_append (.inl hne)])
  | true =>
    simp only [if_true]
    refine .bind (fun m mid ns rest => ∃ more, ns = (if m.isVacuous then more else m :: more) ∧
      Derives l.grammar n (.many id) mid more rest) ((hrule ts hl hne).reindex Prod.fst) hend ?_ ?_ ?_
    · intro m left hleft hm
      -- the round has taken a token, so what is left of the fuel is enough for what is left of the tokens
      have hlt := hm.takes hsteady.2
      have hrest := (ih (hl.suffix hm.suffix) hleft (by omega)).reindex fun b : Room ts × Room ts =>
        (b.1.fewer hlt.le, b.2.pred hlt)
      exact hrest.map _ fun _ more _ h => ⟨more, rfl, h⟩
    · exact fun _ m _ _ => ⟨[], _, nofun, fun tail ht => ⟨ht.1, [], rfl, .manyNil ht.2⟩⟩
    · rintro tail m mid ns rest hm ⟨more, rfl, hmore⟩
      exact .manyCons (by rwa [front_append (.inl hne)]) hm hmore

/-- an operator chain: an operand passes and the chain goes on, or one fails or waits. Each step takes an operator, so
the induction is on the number of tokens. -/
theorem climb_fate (table : OperatorTable) (kind : ListKind) (waiting : Option Precedence) (left : Node) (hl : Lined ts)
    (hne : ts ≠ []) :
    Fate line (fun b : Room ts × Room ts => climb table kind (l.grammar.parseRule b.1.1 n id) b.2.1 waiting left)
      (fun ts m rest => Derives l.grammar n (.climb id table kind waiting left) ts [m] rest)
      (fun t => calm t ∧ operatorOf table t = none) ts := by
  obtain ⟨k, hk⟩ : ∃ k, ts.length < k := ⟨_, Nat.lt_succ_self _⟩
  induction k generalizing ts waiting left with
  | zero => cases hk
  | succ k ih =>
  obtain ⟨t, us, rfl⟩ := List.exists_cons_of_ne_nil hne
  rw [funext fun b : Room (t :: us) × Room (t :: us) =>
    climb_eq table kind (l.grammar.parseRule b.1.1 n id) waiting left (Nat.zero_lt_of_lt b.2.2)]
  refine .ask (built_nextOperator table) hne (run_nextOperator table _) ?_
  cases ho : operatorOf table t with
  | none =>
    rw [front_cons, ho]
    exact .pure hne fun tail => climb_stops ho
  | some p =>
    rw [front_cons, ho]
    cases hy : yields waiting p with
    | false =>
      simp only [hy, Bool.false_eq_true, if_false]
      refine .pure hne fun tail => .climbStop fun p' hp' => ?_
      rw [List.cons_append, front_cons, ho] at hp'
      cases hp'
      exact hy
    | true =>
      simp only [hy, if_true]
      have hus : us ≠ [] := hl.rest_ne_nil (not_lineEnd_of_operator ho)
      have hlus : Lined us := hl.suffix (List.suffix_cons t us)
      have hlen : (t :: us).length = us.length + 1 := rfl
      refine .read (fun us m rest => ∃ first mid, Derives l.grammar n (.rule id) us [first] mid ∧
        Onward l.grammar n id table kind waiting left t p first mid m rest) ?_
        fun _ m rest ⟨first, mid, h1, _, _, h2, h3⟩ => .climbStep ho hy h1 h2 h3
      -- the operand, then all that binds tighter, then the chain again; nothing has to be added to close the last two
      refine .bind (Onward l.grammar n id table kind waiting left t p) ((hrule us hlus hus).reindex
        fun b : Room (t :: us) × Room (t :: us) => b.1.fewer (Nat.le_succ _)) hend ?_ ?_ ?_
      · intro first mid hmid hfirst
        have hlmid := hfirst.suffix.length_le
        refine .bind (fun right after m rest =>
          Derives l.grammar n (.climb id table kind waiting (kind.build [left, .leaf .mark t, right])) after [m] rest)
          ((ih (some p) first (hlus.suffix hfirst.suffix) hmid (by omega)).reindex
            fun b : Room (t :: us) × Room (t :: us) => (b.1.fewer (by omega), b.2.pred (by omega)))
          ⟨hend, operatorOf_inputEnd table⟩ ?_ ?_ ?_
        · intro right after hafter hright
          have hlafter := hright.suffix.length_le
          exact (ih waiting _ (hlus.suffix (hright.suffix.trans hfirst.suffix)) hafter (by omega)).reindex
            fun b : Room (t :: us) × Room (t :: us) => (b.1.fewer (by omega), b.2.pred (by omega))
        · exact fun _ right _ _ => ⟨[], _, nofun, fun tail ht => ⟨ht, climb_stops ht.2⟩⟩
        · exact fun _ right after m rest h1 h2 => ⟨right, after, h1, h2⟩
      · exact fun _ first _ _ => ⟨[], _, nofun, fun tail ht => ⟨ht.1, first, tail, climb_stops ht.2, climb_stops ht.2⟩⟩
      · exact fun _ first mid m rest h1 h2 => ⟨first, mid, h1, h2⟩

end Rule

/-! ## Elements -/

/-- the token goes on with nothing that an expression could end with -/
structure Quiet (t : Token) : Prop where
  operator : operatorOf .standard t = none
  call : t.isLiteral "(" = false
  comma : t.isLiteral "," = false
  otherwise : t.isLiteral "else" = false

/-- the tokens that leave a rule alone when they come after it -/
def CalmAfter (l : Level) (id : RuleId) (t : Token) : Prop :=
  match id with
  | Place.statement | Place.following | Place.simple => opens l t = false
  | _ => Quiet t

/-- the tokens that leave an element alone -/
def CalmAfterElement (l : Level) (e : Element) (t : Token) : Prop :=
  match e with
  | .rule id => CalmAfter l id t
  | .choice ids => ∀ id ∈ ids, CalmAfter l id t
  | .optional id | .many id => CalmAfter l id t ∧ l.grammar.begins t id = some false
  | .operators id table _ => CalmAfter l id t ∧ operatorOf table t = none
  | .token _ _ | .literal _ _ => True

theorem quiet_of_closed {t : Token} (h : opens l t = false) : Quiet t := by
  obtain ⟨line, x⟩ := t
  cases x with
  | identifier s =>
    have hs : s ∈ reservedTexts l := by simpa [opens] using h
    simp only [reservedTexts, List.mem_append, List.mem_cons, List.not_mem_nil, or_false, List.mem_ite_nil_right] at hs
    rcases hs with (rfl | rfl | rfl) | ⟨-, rfl⟩ <;> exact ⟨rfl, rfl, rfl, rfl⟩
  | number d => cases h
  | string s => cases h
  | lineEnd => exact ⟨rfl, rfl, rfl, rfl⟩
  | inputEnd => exact ⟨rfl, rfl, rfl, rfl⟩

theorem calmAfter_of_closed {t : Token} (h : opens l t = false) (id : RuleId) : CalmAfter l id t := by
  unfold CalmAfter
  split
  · exact h
  · exact h
  · exact h
  · exact quiet_of_closed h

/-- the end of input leaves everything alone -/
theorem calm_inputEnd {e : Element} (h : e.Steady l.grammar) : CalmAfterElement l e Token.inputEnd := by
  have hcalm := calmAfter_of_closed (opens_inputEnd l)
  cases e with
  | rule id => exact hcalm id
  | choice ids => exact fun id _ => hcalm id
  | optional id => exact ⟨hcalm id, h⟩
  | many id => exact ⟨hcalm id, h.1⟩
  | operators id table kind => exact ⟨hcalm id, operatorOf_inputEnd table⟩
  | token cls kind => trivial
  | literal texts keep => trivial

/-- the rules that an element calls -/
def calls : Element → List RuleId
  | .rule id | .optional id | .many id | .operators id _ _ => [id]
  | .choice ids => ids
  | .token _ _ | .literal _ _ => []

section Element

variable (hrule : ∀ id ≠ Place.program, ∀ ts, Lined ts → ts ≠ [] → RuleFate l line n id (CalmAfter l id) ts)

include hrule

/-- **Elements that call rules have a fate**, if the rules have one. -/
theorem element_fate {e : Element} (hcalls : Place.program ∉ calls e) (hopen : e.takes = false)
    (hsteady : e.Steady l.grammar) (hl : Lined ts) (hne : ts ≠ []) :
    Fate line (fun b : Room ts => l.grammar.parseElement b.1 (l.grammar.parseRule b.1 n) e)
      (Derives l.grammar n (.element e)) (CalmAfterElement l e) ts := by
  have hends : ∀ id, CalmAfter l id Token.inputEnd := calmAfter_of_closed (opens_inputEnd l)
  cases e with
  | token cls kind => cases hopen
  | literal texts keep => cases hopen
  | rule id =>
    have hid : id ≠ Place.program := fun h => hcalls (List.mem_singleton.2 h.symm)
    exact (hrule id hid ts hl hne).map _ fun _ _ _ h => .call h
  | choice ids =>
    obtain ⟨x, hx⟩ := chosen_answered l (front ts) ids
    refine .ask (built_firstMatch l.grammar.built_canBegin ids) hne (by rw [run_choose, hx]; rfl) ?_
    cases x with
    | none =>
      refine .ask .peek hne (run_peek ts) (.fail ?_)
      rw [ParseError.isUnexpectedEnd, Bool.eq_false_iff, ne_eq, isInputEnd_front hl.unended]
      exact hne
    | some id =>
      have hmem := (mem_of_firstThat hx).1
      have hid : id ≠ Place.program := fun h => hcalls (h ▸ hmem)
      refine ((hrule id hid ts hl hne).calmer fun t ht => ht id hmem).map _ fun tail m rest h => ?_
      exact .choice (by rwa [front_append (.inl hne)]) h
  | optional id =>
    have hid : id ≠ Place.program := fun h => hcalls (List.mem_singleton.2 h.symm)
    obtain ⟨x, hx⟩ := begins_answered l (front ts) id
    refine .ask (l.grammar.built_canBegin id) hne (by rw [run_canBegin, hx]; rfl) ?_
    cases x with
    | false => exact .pure hne fun tail => .skipped (by rwa [front_append (.inl hne)])
    | true =>
      refine ((hrule id hid ts hl hne).calmer fun t ht => ht.1).map _ fun tail m rest h => ?_
      exact .taken (by rwa [front_append (.inl hne)]) h
  | many id =>
    have hid : id ≠ Place.program := fun h => hcalls (List.mem_singleton.2 h.symm)
    exact ((many_fate (hrule id hid) (hends id) hsteady hl hne).reindex fun b : Room ts => (b, b)).imp
      fun _ _ _ h => .repetition h
  | operators id table kind =>
    have hid : id ≠ Place.program := fun h => hcalls (List.mem_singleton.2 h.symm)
    refine .bind (fun first mid ns rest => ∃ m, ns = [m] ∧
      Derives l.grammar n (.climb id table kind none first) mid [m] rest) (hrule id hid ts hl hne) (hends id) ?_ ?_ ?_
    · intro first mid hmid hfirst
      have hlen := hfirst.suffix.length_le
      have hclimb := (climb_fate (hrule id hid) (hends id) table kind none first (hl.suffix hfirst.suffix) hmid).reindex
        fun b : Room ts => (b.fewer hlen, b.fewer hlen)
      exact hclimb.map _ fun _ m _ h => ⟨m, rfl, h⟩
    · exact fun _ first _ _ => ⟨[], _, nofun, fun tail ht => ⟨ht.1, first, rfl, climb_stops ht.2⟩⟩
    · rintro tail first mid ns rest hfirst ⟨m, rfl, hm⟩
      exact .chain hfirst hm

end Element

/-- reading a token and checking it: it passes the check, or the action fails -/
theorem checked_fate {ι α : Type} (accepts : Token → Bool) (give : Token → α) (wanted : Option String) {t : Token}
    (ht : t.isInputEnd = false) (us : List Token) (p : ι → Parsing α)
    (hp : ∀ i, p i = do
      let t ← read
      if accepts t then return give t else fail (.unexpected t wanted)) :
    accepts t = true ∧ Passes p (t :: us) (give t) us ∨
      ∃ e : ParseError, e.isUnexpectedEnd = false ∧ Fails p (t :: us) (.raised e) := by
  have hread : ∀ i s later, Ahead s (t :: us) later → ∃ s', Ahead s' us later ∧ (p i).run s =
      EStateM.run (if accepts t then return give t else fail (.unexpected t wanted) : Parsing α) s' := by
    intro i s later hs
    obtain ⟨s', hr, hs'⟩ := hs.run_read
    exact ⟨s', hs', by rw [hp, EStateM.run_bind, hr]⟩
  cases ha : accepts t with
  | true =>
    refine .inl ⟨rfl, fun i s later hs => ?_⟩
    obtain ⟨s', hs', hr⟩ := hread i s later hs
    exact ⟨s', by rw [hr, ha]; rfl, hs'⟩
  | false =>
    refine .inr ⟨.unexpected t wanted, ht, fun i s later hs => ?_⟩
    obtain ⟨s', hs', hr⟩ := hread i s later hs
    exact ⟨s', by rw [hr, ha]; rfl⟩

/-- can the element take a line end -/
def takesLineEnd : Element → Bool
  | .literal texts _ => texts.contains Token.lineEndText
  | _ => false

/-- an element that takes a token has it or fails -/
theorem taken_fate {e : Element} (htakes : e.takes = true) {t : Token} (ht : t.isInputEnd = false) (us : List Token) :
    (∃ ns, Passes (fun b : Room (t :: us) => l.grammar.parseElement b.1 (l.grammar.parseRule b.1 n) e) (t :: us) ns us ∧
      (∀ ts, Derives l.grammar n (.element e) (t :: ts) ns ts) ∧ (takesLineEnd e = false → t.lexeme ≠ .lineEnd)) ∨
    ∃ err : ParseError, err.isUnexpectedEnd = false ∧
      Fails (fun b : Room (t :: us) => l.grammar.parseElement b.1 (l.grammar.parseRule b.1 n) e) (t :: us)
        (.raised err) := by
  cases e with
  | token cls kind =>
    apply (checked_fate cls.accepts _ none ht us _ fun _ => rfl).imp_left
    rintro ⟨ha, hp⟩
    refine ⟨_, hp, fun _ => .token ha, ?_⟩
    rintro - he
    cases cls <;> simp [TokenClass.accepts, he] at ha
  | literal texts keep =>
    apply (checked_fate (fun t => texts.any t.isLiteral) _ texts.head? ht us _ fun _ => rfl).imp_left
    rintro ⟨ha, hp⟩
    refine ⟨_, hp, fun _ => .literal ha, ?_⟩
    intro hn he
    obtain ⟨text, htext, hlit⟩ := List.any_eq_true.1 ha
    rw [Token.isLiteral, he, beq_iff_eq] at hlit
    rw [takesLineEnd, hlit, List.contains_eq_mem, decide_eq_false_iff_not] at hn
    exact hn htext
  | _ => cases htakes

end Language

end Stone
