/-
Derivations: what it means that a table of rules reads tokens as trees, apart from how parsing computes it. A derivation
says which task reads which tokens, what trees that gives and what it leaves; its first index bounds the nesting of
rules. Choices are made by the next token alone, so the relation asks `begins` where parsing asks `canBegin`.

- `derives_of_run`: whatever parsing gives on a list of tokens has a derivation.
- `Derives.mono`: more room for nesting does no harm.
- `Derives.suffix`: what is left is a last part of what was there.
-/
import Stone.Proofs.Stream

namespace Stone

open TokenStream Parsing

namespace Grammar

/-! ## Lookahead, as a function of the next token -/

/-- the first of these rules that `begins` accepts; none if one before it has no answer -/
def firstThat (begins : RuleId → Option Bool) : List RuleId → Option (Option RuleId)
  | [] => some none
  | id :: more =>
    match begins id with
    | some true => some (some id)
    | some false => firstThat begins more
    | none => none

/-- can the element begin with this token, where `begins` answers for rules -/
def elementBegins (t : Token) (begins : RuleId → Option Bool) : Element → Option Bool
  | .rule id | .optional id | .many id | .operators id _ _ => begins id
  | .choice alternatives => (firstThat begins alternatives).map Option.isSome
  | .token cls _ => some (cls.accepts t)
  | .literal texts _ => some (texts.any t.isLiteral)

/-- `begins` in at most so many steps -/
def beginsWithin (g : Grammar) (t : Token) : Nat → RuleId → Option Bool
  | 0, _ => none
  | steps + 1, id =>
    match (g.rule id).elements with
    | [] => some true
    | first :: _ => elementBegins t (beginsWithin g t steps) first

/-- can the rule begin with this token; none if the question comes back to itself -/
def begins (g : Grammar) (t : Token) (id : RuleId) : Option Bool := g.beginsWithin t (g.rules.size + 1) id

/-- the alternative that this token chooses, if there is one -/
def chosen (g : Grammar) (t : Token) (alternatives : List RuleId) : Option (Option RuleId) :=
  firstThat (g.begins t) alternatives

/-- the answer to a question about bare tokens, which stay as they are -/
def answer {α : Type} (ts : List Token) : Option α → EStateM.Result (Stop ParseError) TokenStream α
  | some a => .ok a (ofTokens ts)
  | none => .error .endless (ofTokens ts)

theorem run_firstMatch {ts : List Token} {ask : RuleId → Parsing Bool} {begins : RuleId → Option Bool}
    (h : ∀ id, (ask id).run (ofTokens ts) = answer ts (begins id)) (ids : List RuleId) :
    (firstMatch ask ids).run (ofTokens ts) = answer ts (firstThat begins ids) := by
  induction ids with
  | nil => rfl
  | cons id more ih =>
    rw [firstMatch, EStateM.run_bind, h id, firstThat]
    cases begins id with
    | none => rfl
    | some b =>
      cases b with
      | true => rfl
      | false => exact ih

theorem run_elementCanBegin {ts : List Token} {ask : RuleId → Parsing Bool} {begins : RuleId → Option Bool}
    (h : ∀ id, (ask id).run (ofTokens ts) = answer ts (begins id)) (e : Element) :
    (elementCanBegin ask e).run (ofTokens ts) = answer ts (elementBegins (front ts) begins e) := by
  cases e with
  | rule id => exact h id
  | optional id => exact h id
  | many id => exact h id
  | operators id table kind => exact h id
  | choice alternatives =>
    rw [elementCanBegin, EStateM.run_bind, run_firstMatch h]
    cases hf : firstThat begins alternatives <;> simp [elementBegins, hf, answer]
  | token cls kind => rw [elementCanBegin, EStateM.run_bind, run_peek]; rfl
  | literal texts keep => rw [elementCanBegin, EStateM.run_bind, run_peek]; rfl

theorem run_canBeginWithin (g : Grammar) (ts : List Token) (steps : Nat) (id : RuleId) :
    (g.canBeginWithin steps id).run (ofTokens ts) = answer ts (g.beginsWithin (front ts) steps id) := by
  induction steps generalizing id with
  | zero => rfl
  | succ steps ih =>
    rw [canBeginWithin, beginsWithin]
    cases (g.rule id).elements with
    | nil => rfl
    | cons first _ => exact run_elementCanBegin ih first

theorem run_canBegin (g : Grammar) (ts : List Token) (id : RuleId) :
    (g.canBegin id).run (ofTokens ts) = answer ts (g.begins (front ts) id) :=
  run_canBeginWithin g ts _ id

theorem run_choose (g : Grammar) (ts : List Token) (ids : List RuleId) :
    (firstMatch g.canBegin ids).run (ofTokens ts) = answer ts (g.chosen (front ts) ids) :=
  run_firstMatch (run_canBegin g ts) ids

theorem mem_of_firstThat {begins : RuleId → Option Bool} {ids : List RuleId} {id : RuleId}
    (h : firstThat begins ids = some (some id)) : id ∈ ids ∧ begins id = some true := by
  induction ids with
  | nil => simp [firstThat] at h
  | cons first more ih =>
    rw [firstThat] at h
    cases hb : begins first with
    | none => rw [hb] at h; cases h
    | some b =>
      rw [hb] at h
      cases b with
      | true => cases h; exact ⟨List.mem_cons_self, hb⟩
      | false => exact ⟨List.mem_cons_of_mem _ (ih h).1, (ih h).2⟩

/-- the precedence of a token, if it is an operator of the table -/
def operatorOf (table : OperatorTable) (t : Token) : Option Precedence :=
  match t.lexeme with
  | .identifier text => table.get? text
  | _ => none

theorem run_nextOperator (table : OperatorTable) (ts : List Token) :
    (nextOperator table).run (ofTokens ts) = .ok (operatorOf table (front ts)) (ofTokens ts) := by
  rw [nextOperator, EStateM.run_bind, run_peek]
  simp only [operatorOf]
  cases (front ts).lexeme <;> rfl

/-! ## Parsing is built from looking and taking -/

theorem built_firstMatch {ask : RuleId → Parsing Bool} (h : ∀ id, Built (ask id)) (ids : List RuleId) :
    Built (firstMatch ask ids) := by
  induction ids with
  | nil => exact .pure _
  | cons id more ih =>
    refine .bind (h id) fun b => ?_
    cases b with
    | true => exact .pure _
    | false => exact ih

theorem built_canBeginWithin (g : Grammar) (steps : Nat) (id : RuleId) : Built (g.canBeginWithin steps id) := by
  induction steps generalizing id with
  | zero => exact .throw _
  | succ steps ih =>
    rw [canBeginWithin]
    cases (g.rule id).elements with
    | nil => exact .pure _
    | cons first _ =>
      cases first with
      | rule id => exact ih id
      | optional id => exact ih id
      | many id => exact ih id
      | operators id table kind => exact ih id
      | choice alternatives => exact .bind (built_firstMatch ih _) fun _ => .pure _
      | token cls kind => exact .bind .peek fun _ => .pure _
      | literal texts keep => exact .bind .peek fun _ => .pure _

theorem built_canBegin (g : Grammar) (id : RuleId) : Built (g.canBegin id) := built_canBeginWithin g _ id

theorem built_fail {α : Type} (e : ParseError) : Built (fail e : Parsing α) := .throw _

theorem built_parseMany {ask : Parsing Bool} {parse : Parsing Node} (ha : Built ask) (hp : Built parse)
    (budget : Nat) : Built (parseMany ask parse budget) := by
  induction budget with
  | zero => exact .throw _
  | succ budget ih =>
    refine .bind ha fun b => ?_
    cases b with
    | true => exact .bind hp fun _ => .bind ih fun _ => .pure _
    | false => exact .pure _

theorem built_nextOperator (table : OperatorTable) : Built (nextOperator table) := by
  refine .bind .peek fun t => ?_
  cases t.lexeme <;> exact .pure _

theorem built_climb {table : OperatorTable} {kind : ListKind} {operand : Parsing Node} (h : Built operand)
    (budget : Nat) (waiting : Option Precedence) (left : Node) :
    Built (climb table kind operand budget waiting left) := by
  induction budget generalizing waiting left with
  | zero => exact .throw _
  | succ budget ih =>
    refine .bind (built_nextOperator table) fun next => ?_
    cases next with
    | none => exact .pure _
    | some p =>
      simp only
      split
      · exact .bind .read fun _ => .bind h fun _ => .bind (ih _ _) fun _ => ih _ _
      · exact .pure _

theorem built_parseElement {g : Grammar} {budget : Nat} {parse : RuleId → Parsing Node}
    (h : ∀ id, Built (parse id)) (e : Element) : Built (parseElement g budget parse e) := by
  cases e with
  | rule id => exact .bind (h id) fun _ => .pure _
  | choice alternatives =>
    refine .bind (built_firstMatch g.built_canBegin _) fun o => ?_
    cases o with
    | some id => exact .bind (h id) fun _ => .pure _
    | none => exact .bind .peek fun _ => built_fail _
  | optional id =>
    refine .bind (g.built_canBegin id) fun b => ?_
    cases b with
    | true => exact .bind (h id) fun _ => .pure _
    | false => exact .pure _
  | many id => exact built_parseMany (g.built_canBegin id) (h id) budget
  | token cls kind =>
    refine .bind .read fun t => ?_
    split
    · exact .pure _
    · exact built_fail _
  | literal texts keep =>
    refine .bind .read fun t => ?_
    split
    · exact .pure _
    · exact built_fail _
  | operators id table kind => exact .bind (h id) fun _ => .bind (built_climb (h id) _ _ _) fun _ => .pure _

theorem built_parseElements {g : Grammar} {budget : Nat} {parse : RuleId → Parsing Node}
    (h : ∀ id, Built (parse id)) (es : List Element) : Built (parseElements g budget parse es) := by
  induction es with
  | nil => exact .pure _
  | cons e more ih => exact .bind (built_parseElement h e) fun _ => .bind ih fun _ => .pure _

theorem built_parseRule (g : Grammar) (budget nesting : Nat) (id : RuleId) : Built (g.parseRule budget nesting id) := by
  induction nesting generalizing id with
  | zero => exact .bind .peek fun _ => built_fail _
  | succ nesting ih => exact .bind (built_parseElements ih _) fun _ => .pure _

end Grammar

/-! ## Tasks -/

open Grammar

/-- what is to be read: a rule, a step of a rule or what is left of one -/
inductive Task where
  | rule (id : RuleId)
  | element (e : Element)
  | elements (es : List Element)
  /-- the rest of a repetition -/
  | many (id : RuleId)
  /-- the rest of an operator chain after `left` -/
  | climb (id : RuleId) (table : OperatorTable) (kind : ListKind) (waiting : Option Precedence) (left : Node)

/-- how parsing does a task; `fuel` is what is left of the budget of a repetition or chain that has begun -/
def Task.run (g : Grammar) (budget nesting fuel : Nat) : Task → Parsing (List Node)
  | rule id => return [← g.parseRule budget nesting id]
  | element e => g.parseElement budget (g.parseRule budget nesting) e
  | elements es => g.parseElements budget (g.parseRule budget nesting) es
  | many id => parseMany (g.canBegin id) (g.parseRule budget nesting id) fuel
  | climb id table kind waiting left =>
    return [← Grammar.climb table kind (g.parseRule budget nesting id) fuel waiting left]

/-- in table `g`, with rules nested at most so deep, a task reads tokens as trees and leaves other tokens -/
inductive Derives (g : Grammar) : Nat → Task → List Token → List Node → List Token → Prop
  | rule {n : Nat} {id : RuleId} {ts rest : List Token} {ns : List Node} :
      Derives g n (.elements (g.rule id).elements) ts ns rest →
      Derives g (n + 1) (.rule id) ts [(g.rule id).build.make ns] rest
  | nil {n : Nat} {ts : List Token} : Derives g n (.elements []) ts [] ts
  | cons {n : Nat} {e : Element} {es : List Element} {ts mid rest : List Token} {ns ms : List Node} :
      Derives g n (.element e) ts ns mid → Derives g n (.elements es) mid ms rest →
      Derives g n (.elements (e :: es)) ts (ns ++ ms) rest
  | call {n : Nat} {id : RuleId} {ts rest : List Token} {ns : List Node} :
      Derives g n (.rule id) ts ns rest → Derives g n (.element (.rule id)) ts ns rest
  | choice {n : Nat} {ids : List RuleId} {id : RuleId} {ts rest : List Token} {ns : List Node} :
      g.chosen (front ts) ids = some (some id) → Derives g n (.rule id) ts ns rest →
      Derives g n (.element (.choice ids)) ts ns rest
  | skipped {n : Nat} {id : RuleId} {ts : List Token} :
      g.begins (front ts) id = some false → Derives g n (.element (.optional id)) ts [] ts
  | taken {n : Nat} {id : RuleId} {ts rest : List Token} {m : Node} :
      g.begins (front ts) id = some true → Derives g n (.rule id) ts [m] rest →
      Derives g n (.element (.optional id)) ts (if m.isVacuous then [] else [m]) rest
  | repetition {n : Nat} {id : RuleId} {ts rest : List Token} {ns : List Node} :
      Derives g n (.many id) ts ns rest → Derives g n (.element (.many id)) ts ns rest
  | manyNil {n : Nat} {id : RuleId} {ts : List Token} :
      g.begins (front ts) id = some false → Derives g n (.many id) ts [] ts
  | manyCons {n : Nat} {id : RuleId} {ts mid rest : List Token} {m : Node} {ns : List Node} :
      g.begins (front ts) id = some true → Derives g n (.rule id) ts [m] mid → Derives g n (.many id) mid ns rest →
      Derives g n (.many id) ts (if m.isVacuous then ns else m :: ns) rest
  | token {n : Nat} {cls : TokenClass} {kind : LeafKind} {t : Token} {ts : List Token} :
      cls.accepts t = true → Derives g n (.element (.token cls kind)) (t :: ts) [.leaf kind t] ts
  | literal {n : Nat} {texts : List String} {keep : Bool} {t : Token} {ts : List Token} :
      texts.any t.isLiteral = true →
      Derives g n (.element (.literal texts keep)) (t :: ts) (if keep then [.leaf .mark t] else []) ts
  | chain {n : Nat} {id : RuleId} {table : OperatorTable} {kind : ListKind} {ts mid rest : List Token} {first : Node}
      {ns : List Node} :
      Derives g n (.rule id) ts [first] mid → Derives g n (.climb id table kind none first) mid ns rest →
      Derives g n (.element (.operators id table kind)) ts ns rest
  | climbStop {n : Nat} {id : RuleId} {table : OperatorTable} {kind : ListKind} {waiting : Option Precedence}
      {left : Node} {ts : List Token} :
      (∀ p, operatorOf table (front ts) = some p → yields waiting p = false) →
      Derives g n (.climb id table kind waiting left) ts [left] ts
  | climbStep {n : Nat} {id : RuleId} {table : OperatorTable} {kind : ListKind} {waiting : Option Precedence}
      {left first right : Node} {op : Token} {ts mid after rest : List Token} {ns : List Node} {p : Precedence} :
      operatorOf table op = some p → yields waiting p = true → Derives g n (.rule id) ts [first] mid →
      Derives g n (.climb id table kind (some p) first) mid [right] after →
      Derives g n (.climb id table kind waiting (kind.build [left, .leaf .mark op, right])) after ns rest →
      Derives g n (.climb id table kind waiting left) (op :: ts) ns rest

namespace Derives

variable {g : Grammar} {n m : Nat} {task : Task} {ts rest : List Token} {ns : List Node}

/-- more room for nesting does no harm -/
theorem mono (h : Derives g n task ts ns rest) (hm : n ≤ m) : Derives g m task ts ns rest := by
  induction h generalizing m with
  | rule _ ih =>
    obtain ⟨k, rfl⟩ : ∃ k, m = k + 1 := ⟨m - 1, by omega⟩
    exact .rule (ih (by omega))
  | nil => exact .nil
  | cons _ _ ih1 ih2 => exact .cons (ih1 hm) (ih2 hm)
  | call _ ih => exact .call (ih hm)
  | choice hc _ ih => exact .choice hc (ih hm)
  | skipped hb => exact .skipped hb
  | taken hb _ ih => exact .taken hb (ih hm)
  | repetition _ ih => exact .repetition (ih hm)
  | manyNil hb => exact .manyNil hb
  | manyCons hb _ _ ih1 ih2 => exact .manyCons hb (ih1 hm) (ih2 hm)
  | token ha => exact .token ha
  | literal ha => exact .literal ha
  | chain _ _ ih1 ih2 => exact .chain (ih1 hm) (ih2 hm)
  | climbStop hs => exact .climbStop hs
  | climbStep ho hy _ _ _ ih1 ih2 ih3 => exact .climbStep ho hy (ih1 hm) (ih2 hm) (ih3 hm)

/-- what is left is a last part of what was there -/
theorem suffix (h : Derives g n task ts ns rest) : rest <:+ ts := by
  induction h with
  | rule _ ih => exact ih
  | nil => exact List.suffix_refl _
  | cons _ _ ih1 ih2 => exact ih2.trans ih1
  | call _ ih => exact ih
  | choice _ _ ih => exact ih
  | skipped _ => exact List.suffix_refl _
  | taken _ _ ih => exact ih
  | repetition _ ih => exact ih
  | manyNil _ => exact List.suffix_refl _
  | manyCons _ _ _ ih1 ih2 => exact ih2.trans ih1
  | token _ => exact List.suffix_cons _ _
  | literal _ => exact List.suffix_cons _ _
  | chain _ _ ih1 ih2 => exact ih2.trans ih1
  | climbStop _ => exact List.suffix_refl _
  | climbStep _ _ _ _ _ ih1 ih2 ih3 => exact (ih3.trans (ih2.trans ih1)).trans (List.suffix_cons _ _)

/-- an operator chain gives one tree -/
theorem climb_one {id : RuleId} {table : OperatorTable} {kind : ListKind} {waiting : Option Precedence} {left : Node}
    (h : Derives g n (.climb id table kind waiting left) ts ns rest) : ∃ m, ns = [m] := by
  generalize ht : Task.climb id table kind waiting left = task at h
  induction h generalizing left with
  | climbStop _ => cases ht; exact ⟨_, rfl⟩
  | climbStep _ _ _ _ _ _ _ ih => cases ht; exact ih rfl
  | _ => cases ht

end Derives

/-! ## What parsing gives has a derivation -/

/-- every success of the action on bare tokens has a derivation of the task -/
def Justified (g : Grammar) (n : Nat) (task : Task) (p : Parsing (List Node)) : Prop :=
  ∀ ts ns s, p.run (ofTokens ts) = .ok ns s → ∃ rest, s = ofTokens rest ∧ Derives g n task ts ns rest

section Justification

variable {g : Grammar} {budget n : Nat}

/-- what a success of one action after another says about the first -/
theorem ok_of_bind {α β : Type} {p : Parsing α} {f : α → Parsing β} {s s' : TokenStream} {b : β}
    (h : (p >>= f).run s = .ok b s') : ∃ a mid, p.run s = .ok a mid ∧ (f a).run mid = .ok b s' := by
  rw [EStateM.run_bind] at h
  cases hp : p.run s with
  | error e mid => rw [hp] at h; cases h
  | ok a mid => rw [hp] at h; exact ⟨a, mid, rfl, h⟩

theorem justified_rule {id : RuleId} (h : Justified g n (.rule id) ((Task.rule id).run g budget n 0)) {ts : List Token}
    {m : Node} {s : TokenStream} (hr : (g.parseRule budget n id).run (ofTokens ts) = .ok m s) :
    ∃ rest, s = ofTokens rest ∧ Derives g n (.rule id) ts [m] rest :=
  h ts [m] s (by rw [Task.run, EStateM.run_bind, hr]; rfl)

/-- a question about bare tokens that has an answer leaves them as they are -/
theorem ok_of_answer {α : Type} {ts : List Token} {o : Option α} {a : α} {s : TokenStream}
    (h : answer ts o = .ok a s) : o = some a ∧ s = ofTokens ts := by
  cases o with
  | none => cases h
  | some b => cases h; exact ⟨rfl, rfl⟩

theorem justified_many {id : RuleId} (h : Justified g n (.rule id) ((Task.rule id).run g budget n 0)) (fuel : Nat) :
    Justified g n (.many id) ((Task.many id).run g budget n fuel) := by
  intro ts ns s hr
  simp only [Task.run] at hr
  induction fuel generalizing ts ns s with
  | zero => cases hr
  | succ fuel ih =>
    rw [parseMany] at hr
    obtain ⟨b, s1, h1, hr⟩ := ok_of_bind hr
    rw [Parsing.lift_self, run_canBegin] at h1
    obtain ⟨hb, rfl⟩ := ok_of_answer h1
    cases b with
    | false => cases hr; exact ⟨ts, rfl, .manyNil hb⟩
    | true =>
      obtain ⟨m, s2, h2, hr⟩ := ok_of_bind hr
      obtain ⟨mid, rfl, hm⟩ := justified_rule h h2
      obtain ⟨more, s3, h3, hr⟩ := ok_of_bind hr
      obtain ⟨rest, rfl, hmore⟩ := ih mid more s3 h3
      cases hr
      exact ⟨rest, rfl, .manyCons hb hm hmore⟩

/-- an operator chain gives one tree, so this speaks of the tree and not of the list of it -/
theorem derives_climb {id : RuleId} (h : Justified g n (.rule id) ((Task.rule id).run g budget n 0))
    {table : OperatorTable} {kind : ListKind} {fuel : Nat} {waiting : Option Precedence} {left m : Node}
    {ts : List Token} {s : TokenStream}
    (hr : (climb table kind (g.parseRule budget n id) fuel waiting left).run (ofTokens ts) = .ok m s) :
    ∃ rest, s = ofTokens rest ∧ Derives g n (.climb id table kind waiting left) ts [m] rest := by
  induction fuel generalizing ts m s waiting left with
  | zero => cases hr
  | succ fuel ih =>
    rw [Grammar.climb] at hr
    obtain ⟨next, s1, h1, hr⟩ := ok_of_bind hr
    rw [Parsing.lift_self, run_nextOperator] at h1
    obtain ⟨rfl, rfl⟩ : next = operatorOf table (front ts) ∧ s1 = ofTokens ts := by cases h1; exact ⟨rfl, rfl⟩
    cases ho : operatorOf table (front ts) with
    | none =>
      rw [ho] at hr
      cases hr
      exact ⟨ts, rfl, .climbStop (by simp [ho])⟩
    | some p =>
      rw [ho] at hr
      by_cases hy : yields waiting p = true
      · simp only [hy, if_true] at hr
        obtain ⟨op, s2, h2, hr⟩ := ok_of_bind hr
        cases ts with
        | nil => simp [operatorOf, Token.inputEnd] at ho
        | cons t ts =>
          obtain ⟨rfl, rfl⟩ : op = t ∧ s2 = ofTokens ts := by rw [Parsing.lift_self, run_read] at h2; cases h2; exact ⟨rfl, rfl⟩
          obtain ⟨first, s3, h3, hr⟩ := ok_of_bind hr
          obtain ⟨mid, rfl, hfirst⟩ := justified_rule h h3
          obtain ⟨right, s4, h4, hr⟩ := ok_of_bind hr
          obtain ⟨after, rfl, hright⟩ := ih h4
          obtain ⟨rest, rfl, hrest⟩ := ih hr
          exact ⟨rest, rfl, .climbStep ho hy hfirst hright hrest⟩
      · simp only [hy] at hr
        cases hr
        exact ⟨ts, rfl, .climbStop fun q hq => by rw [ho] at hq; cases hq; simpa using hy⟩

theorem justified_element (h : ∀ id, Justified g n (.rule id) ((Task.rule id).run g budget n 0)) (e : Element) :
    Justified g n (.element e) ((Task.element e).run g budget n 0) := by
  intro ts ns s hr
  simp only [Task.run] at hr
  cases e with
  | rule id =>
    obtain ⟨rest, hs, hd⟩ := h id ts ns s hr
    exact ⟨rest, hs, .call hd⟩
  | choice ids =>
    obtain ⟨o, s1, h1, hr⟩ := ok_of_bind hr
    rw [Parsing.lift_self, run_choose] at h1
    obtain ⟨hc, rfl⟩ := ok_of_answer h1
    cases o with
    | none =>
      obtain ⟨t, s2, -, hr⟩ := ok_of_bind hr
      cases hr
    | some id =>
      obtain ⟨rest, hs, hd⟩ := h id ts ns s hr
      exact ⟨rest, hs, .choice hc hd⟩
  | optional id =>
    obtain ⟨b, s1, h1, hr⟩ := ok_of_bind hr
    rw [Parsing.lift_self, run_canBegin] at h1
    obtain ⟨hb, rfl⟩ := ok_of_answer h1
    cases b with
    | false => cases hr; exact ⟨ts, rfl, .skipped hb⟩
    | true =>
      obtain ⟨m, s2, h2, hr⟩ := ok_of_bind hr
      obtain ⟨rest, rfl, hm⟩ := justified_rule (h id) h2
      cases hr
      exact ⟨rest, rfl, .taken hb hm⟩
  | many id =>
    obtain ⟨rest, hs, hd⟩ := justified_many (h id) budget ts ns s hr
    exact ⟨rest, hs, .repetition hd⟩
  | token cls kind =>
    obtain ⟨t, s1, h1, hr⟩ := ok_of_bind hr
    rw [Parsing.lift_self, run_read] at h1
    by_cases ha : cls.accepts t = true
    · simp only [ha, if_true] at hr
      cases hr
      cases ts with
      | nil => cases h1; cases cls <;> cases ha
      | cons u us => cases h1; exact ⟨us, rfl, .token ha⟩
    · simp only [ha] at hr
      cases hr
  | literal texts keep =>
    obtain ⟨t, s1, h1, hr⟩ := ok_of_bind hr
    rw [Parsing.lift_self, run_read] at h1
    by_cases ha : texts.any t.isLiteral = true
    · simp only [ha, if_true] at hr
      cases hr
      cases ts with
      | nil => cases h1; simp [Token.isLiteral, Token.inputEnd] at ha
      | cons u us => cases h1; exact ⟨us, rfl, .literal ha⟩
    · simp only [ha] at hr
      cases hr
  | operators id table kind =>
    obtain ⟨first, s1, h1, hr⟩ := ok_of_bind hr
    obtain ⟨mid, rfl, hfirst⟩ := justified_rule (h id) h1
    obtain ⟨m, s2, hr', hm⟩ := ok_of_bind hr
    cases hm
    obtain ⟨rest, hs, hd⟩ := derives_climb (h id) hr'
    exact ⟨rest, hs, .chain hfirst hd⟩

theorem justified_elements (h : ∀ id, Justified g n (.rule id) ((Task.rule id).run g budget n 0))
    (es : List Element) : Justified g n (.elements es) ((Task.elements es).run g budget n 0) := by
  induction es with
  | nil =>
    intro ts ns s hr
    cases hr
    exact ⟨ts, rfl, .nil⟩
  | cons e es ih =>
    intro ts ns s hr
    simp only [Task.run] at hr
    obtain ⟨first, s1, h1, hr⟩ := ok_of_bind hr
    obtain ⟨others, s2, h2, hr⟩ := ok_of_bind hr
    obtain ⟨mid, rfl, hfirst⟩ := justified_element h e ts first s1 h1
    obtain ⟨rest, rfl, hothers⟩ := ih mid others s2 h2
    cases hr
    exact ⟨rest, rfl, .cons hfirst hothers⟩

/-- **Parsing is justified.** A tree that parsing gives on a list of tokens has a derivation from these tokens. -/
theorem derives_of_run (g : Grammar) (budget n : Nat) (id : RuleId) :
    Justified g n (.rule id) ((Task.rule id).run g budget n 0) := by
  induction n generalizing id with
  | zero =>
    intro ts ns s hr
    obtain ⟨m, s1, h1, -⟩ := ok_of_bind hr
    obtain ⟨t, s2, -, h2⟩ := ok_of_bind h1
    cases h2
  | succ n ih =>
    intro ts ns s hr
    obtain ⟨m, s1, h1, hr⟩ := ok_of_bind hr
    cases hr
    obtain ⟨ms, s2, h2, h1⟩ := ok_of_bind h1
    obtain ⟨rest, rfl, hd⟩ := justified_elements ih _ ts ms s2 h2
    cases h1
    exact ⟨rest, rfl, .rule hd⟩

end Justification

end Stone
