/-
Evaluation on other machines. A machine does what evaluation does, and something of its own besides: it may count, or
stop where evaluation goes on. The forms of trees are put together from their parts in the same way on every machine
(`evalNode`), and only the parts know which one they run on.

A correspondence relates actions of a machine to actions of evaluation. If it goes along with single values and
sequencing, and relates the steps of evaluation to themselves, it goes along with every form of tree. Loops that are
taken to be endless are a step as well, but only loops take it, so a correspondence may leave it out.

The errors that are raised matter to some correspondences. `Node.Fails` says which errors a tree raises by itself, when
its parts have done what they were asked for.

- `Correspondence.node`: one tree corresponds, if its parts do.
- `fails_at_limit`: where the parts are refused because they are too deep, that refusal is an error of the tree.
-/
import Stone.Proofs.Safety

namespace Stone

open Evaluation

/-! ## Errors of trees -/

/-- the errors that a tree raises by itself. A part that is too deep is refused, and nothing comes after that: of most
lists it is then the first part. -/
inductive Node.Fails : Node → EvalError → Prop
  | malformed {n : Node} {e : EvalError} : e.isMalformed = true → Fails n e
  | unbound {t : Token} : Fails (.leaf .name t) (.undefinedName t.text (some t.line))
  | operation {children : List Node} {e : EvalError} : e.line? = (Node.list .binary children).line? →
      Fails (.list .binary children) e
  | negated {children : List Node} {found : String} :
      Fails (.list .negative children) (.badType "-" found (Node.list .negative children).line?)
  | arity {children : List Node} {expected got : Nat} :
      Fails (.list .primary children) (.arity expected got (Node.list .primary children).line?)
  | notAFunction {children : List Node} {found : String} :
      Fails (.list .primary children) (.notAFunction found (Node.list .primary children).line?)
  | deepFirst {kind : ListKind} {part : Node} {others : List Node} :
      kind ∈ [ListKind.negative, .primary, .conditional, .loop] →
      Fails (.list kind (part :: others)) (.tooDeep part.line?)
  | deepPart {kind : ListKind} {children : List Node} {part : Node} : kind ∈ [ListKind.binary, .block] →
      part ∈ children → Fails (.list kind children) (.tooDeep part.line?)

theorem Node.Fails.noValue (n m : Node) : n.Fails (.noValue m) := .malformed rfl

/-! ## Steps -/

/-- the action ends, and an error that it raises is one of these -/
def Raises {α : Type} (permitted : EvalError → Prop) (p : Evaluation α) : Prop :=
  ∀ h e k, p.run h = .error e k → ∃ error, e = .raised error ∧ permitted error

section Raises

variable {α β : Type} {permitted : EvalError → Prop} {p : Evaluation α} {f : α → Evaluation β}

theorem Raises.pure (a : α) : Raises permitted (Pure.pure a : Evaluation α) := nofun

theorem Raises.fail {e : EvalError} (he : permitted e) : Raises permitted (Evaluation.fail e : Evaluation α) := by
  intro h e' k hr
  cases hr
  exact ⟨e, rfl, he⟩

theorem Raises.change (k : Heap → α × Heap) : Raises permitted (modifyGet k : Evaluation α) := nofun

theorem Raises.bind (hp : Raises permitted p) (hf : ∀ a, Raises permitted (f a)) : Raises permitted (p >>= f) := by
  intro h e k hr
  rw [EStateM.run_bind] at hr
  cases hrun : p.run h with
  | error e' k' =>
    rw [hrun] at hr
    cases hr
    exact hp h e k hrun
  | ok a k' =>
    rw [hrun] at hr
    exact hf a k' e k hr

theorem Raises.need {n : Node} (hn : permitted (.noValue n)) (o : Option α) :
    Raises permitted (Evaluation.need n o) := by
  cases o with
  | some a => exact .pure a
  | none => exact .fail hn

theorem Raises.leaf {kind : LeafKind} {t : Token} {s : ScopeId}
    (hn : ∀ e, (Node.leaf kind t).Fails e → permitted e) : Raises permitted (evalLeaf kind t s) := by
  cases kind with
  | mark => exact .fail (hn _ (.noValue _ _))
  | string => exact .pure _
  | number =>
    rw [evalLeaf]
    split
    · exact .pure _
    · exact .fail (hn _ (.noValue _ _))
  | name =>
    intro h e k hr
    rw [run_evalLeaf_name] at hr
    cases hv : h.get? s t.text with
    | some v => rw [hv] at hr; cases hr
    | none =>
      rw [hv] at hr
      cases hr
      exact ⟨_, rfl, hn _ .unbound⟩

theorem Raises.definition {n : Node} {s : ScopeId} (hn : permitted (.noValue n)) :
    Raises permitted (evalDefinition n s) := by
  unfold evalDefinition
  apply Raises.bind (.need hn _)
  intro name
  apply Raises.bind (.need hn _)
  intro params
  apply Raises.bind (.need hn _)
  intro body
  exact .bind (.change _) fun f => .bind (.change _) fun _ => .pure _

theorem Raises.closure {n : Node} {s : ScopeId} (hn : permitted (.noValue n)) :
    Raises permitted (evalClosure n s) := by
  unfold evalClosure
  apply Raises.bind (.need hn _)
  intro params
  apply Raises.bind (.need hn _)
  intro body
  exact .change _

end Raises

/-- errors of operators on values are on the line of the operation -/
theorem applyOperator_line {op : Operator} {a b : Value} {line : Option Nat} {e : EvalError}
    (h : applyOperator op a b line = .error e) : e.line? = line := by
  have hrange : ∀ o, inRange line o = .error e → e.line? = line := by
    intro o ho
    cases o with
    | some d => cases ho
    | none => cases ho; rfl
  have hnumbers : ∀ x y, applyToNumbers op x y line = .error e → e.line? = line := by
    intro x y hxy
    unfold applyToNumbers at hxy
    split at hxy
    · exact hrange _ hxy
    · exact hrange _ hxy
    · exact hrange _ hxy
    · split at hxy
      · cases hxy; rfl
      · exact hrange _ hxy
    · split at hxy
      · cases hxy; rfl
      · exact hrange _ hxy
    all_goals cases hxy
    rfl
  unfold applyOperator at h
  split at h
  · cases h
  · exact hnumbers _ _ h
  · cases h
  · cases h; rfl

/-! ## Correspondences -/

/-- a relation between the actions of a machine and of evaluation that goes along with single values, sequencing and all
steps of evaluation that end and raise none but the permitted errors -/
structure Correspondence {m : Type → Type} [Monad m] [MonadLiftT Evaluation m]
    (R : ∀ {α : Type}, m α → Evaluation α → Prop) (permitted : EvalError → Prop) : Prop where
  pure {α : Type} (a : α) : R (pure a) (pure a)
  bind {α β : Type} {p : m α} {q : Evaluation α} {f : α → m β} {g : α → Evaluation β} :
    R p q → (∀ a, R (f a) (g a)) → R (p >>= f) (q >>= g)
  step {α : Type} {q : Evaluation α} : Raises permitted q → R (liftM q) q

namespace Correspondence

variable {m : Type → Type} [Monad m] [MonadLiftT Evaluation m] {R : ∀ {α : Type}, m α → Evaluation α → Prop}
  {permitted : EvalError → Prop} (c : Correspondence R permitted) {eval : Node → ScopeId → m Value}
  {eval' : Node → ScopeId → Evaluation Value} {s : ScopeId} {children : List Node}

include c

theorem fail {α : Type} {e : EvalError} (he : permitted e) :
    R (liftM (Evaluation.fail e : Evaluation α)) (Evaluation.fail e) := c.step (.fail he)

theorem change {α : Type} (k : Heap → α × Heap) :
    R (liftM (modifyGet k : Evaluation α)) (modifyGet k) := c.step (.change k)

theorem need {α : Type} {n : Node} (hn : ∀ e, n.Fails e → permitted e) (o : Option α) :
    R (liftM (Evaluation.need n o)) (Evaluation.need n o) := c.step (.need (hn _ (.noValue n n)) o)

theorem binary (heval : ∀ n s, R (eval n s) (eval' n s))
    (hn : ∀ e, (Node.list .binary children).Fails e → permitted e) :
    R (evalBinary eval (.list .binary children) s) (evalBinary eval' (.list .binary children) s) := by
  unfold evalBinary
  apply c.bind (c.need hn _)
  intro left
  apply c.bind (c.need hn _)
  intro symbol
  apply c.bind (c.need hn _)
  intro right
  cases Operator.ofSymbol? symbol.text with
  | none => exact c.fail (hn _ (.malformed rfl))
  | some op =>
    by_cases hop : op = .assign
    · subst hop
      cases left.name? with
      | none => exact c.fail (hn _ (.operation rfl))
      | some name => exact c.bind (heval right s) fun v => c.bind (c.change _) fun _ => c.pure v
    · cases op with
      | assign => exact absurd rfl hop
      | _ =>
        apply c.bind (heval left s)
        intro a
        apply c.bind (heval right s)
        intro b
        generalize hr : applyOperator _ a b _ = r
        cases r with
        | ok v => exact c.pure v
        | error e => exact c.fail (hn e (.operation (applyOperator_line hr)))

theorem negative (heval : ∀ n s, R (eval n s) (eval' n s))
    (hn : ∀ e, (Node.list .negative children).Fails e → permitted e) :
    R (evalNegative eval (.list .negative children) s) (evalNegative eval' (.list .negative children) s) := by
  unfold evalNegative
  apply c.bind (c.need hn _)
  intro operand
  apply c.bind (heval operand s)
  intro v
  cases v with
  | number d => exact c.pure _
  | _ => exact c.fail (hn _ .negated)

theorem arguments (heval : ∀ n s, R (eval n s) (eval' n s)) (caller inner : ScopeId) (bound : List (String × Node)) :
    R (bindArguments eval caller inner bound) (bindArguments eval' caller inner bound) := by
  induction bound with
  | nil => exact c.pure _
  | cons first more ih =>
    obtain ⟨param, argument⟩ := first
    exact c.bind (heval argument caller) fun v => c.bind (c.change _) fun _ => ih

theorem call (heval : ∀ n s, R (eval n s) (eval' n s))
    (hn : ∀ e, (Node.list .primary children).Fails e → permitted e) (callee : Value) (arguments : List Node) :
    R (call eval callee arguments s (Node.list .primary children).line?)
      (Stone.call eval' callee arguments s (Node.list .primary children).line?) := by
  cases callee with
  | function f =>
    rw [Stone.call, Stone.call]
    split
    · exact c.fail (hn _ .arity)
    · apply c.bind (c.change _)
      intro inner
      apply c.bind (c.arguments heval s inner _)
      intro _
      exact heval f.body inner
  | _ => exact c.fail (hn _ .notAFunction)

theorem calls (heval : ∀ n s, R (eval n s) (eval' n s))
    (hn : ∀ e, (Node.list .primary children).Fails e → permitted e) (v : Value) (calls : List Node) :
    R (evalCalls eval s (Node.list .primary children).line? v calls)
      (evalCalls eval' s (Node.list .primary children).line? v calls) := by
  induction calls generalizing v with
  | nil => exact c.pure v
  | cons first more ih =>
    cases first with
    | leaf kind t => exact c.fail (hn _ (.noValue _ _))
    | list kind arguments =>
      cases kind with
      | arguments => exact c.bind (c.call heval hn v arguments) fun w => ih w
      | _ => exact c.fail (hn _ (.noValue _ _))

theorem statements (heval : ∀ n s, R (eval n s) (eval' n s)) (v : Value) (ns : List Node) :
    R (evalStatements eval s v ns) (evalStatements eval' s v ns) := by
  induction ns generalizing v with
  | nil => exact c.pure v
  | cons n more ih =>
    unfold evalStatements
    split
    · exact ih v
    · exact c.bind (heval n s) fun w => ih w

theorem conditional (heval : ∀ n s, R (eval n s) (eval' n s))
    (hn : ∀ e, (Node.list .conditional children).Fails e → permitted e) :
    R (evalConditional eval (.list .conditional children) s)
      (evalConditional eval' (.list .conditional children) s) := by
  unfold evalConditional
  apply c.bind (c.need hn _)
  intro condition
  apply c.bind (heval condition s)
  intro v
  split
  · apply c.bind (c.need hn _)
    intro body
    exact heval body s
  · cases (Node.list .conditional children).child? 2 with
    | some other => exact heval other s
    | none => exact c.pure _

/-- rounds of a loop, if the machine takes the same loops to be endless -/
theorem rounds (hend : R (liftM (throw .endless : Evaluation Value)) (throw .endless))
    (heval : ∀ n s, R (eval n s) (eval' n s)) (condition body : Node) (rounds : Nat) (v : Value) :
    R (evalRounds eval condition body s rounds v) (evalRounds eval' condition body s rounds v) := by
  induction rounds generalizing v with
  | zero => exact hend
  | succ rounds ih =>
    unfold evalRounds
    apply c.bind (heval condition s)
    intro truth
    split
    · exact c.bind (heval body s) fun w => ih w
    · exact c.pure v

theorem loop (hend : R (liftM (throw .endless : Evaluation Value)) (throw .endless))
    (heval : ∀ n s, R (eval n s) (eval' n s)) (hn : ∀ e, (Node.list .loop children).Fails e → permitted e)
    (rounds : Nat) :
    R (evalLoop rounds eval (.list .loop children) s) (evalLoop rounds eval' (.list .loop children) s) := by
  unfold evalLoop
  apply c.bind (c.need hn _)
  intro condition
  apply c.bind (c.need hn _)
  intro body
  exact c.rounds hend heval condition body rounds .zero

/-- **One tree corresponds**, if its parts do, and if its own errors are permitted. -/
theorem node {rounds rounds' : Nat} {n : Node} (heval : ∀ n s, R (eval n s) (eval' n s))
    (hn : ∀ e, n.Fails e → permitted e)
    (hloop : n.is .loop = true → rounds = rounds' ∧ R (liftM (throw .endless : Evaluation Value)) (throw .endless)) :
    R (evalNode rounds eval n s) (evalNode rounds' eval' n s) := by
  cases n with
  | leaf kind t => exact c.step (.leaf hn)
  | list kind children =>
    cases kind with
    | binary => exact c.binary heval hn
    | negative => exact c.negative heval hn
    | primary =>
      cases children with
      | nil => exact c.fail (hn _ (.noValue _ _))
      | cons operand calls => exact c.bind (heval operand s) fun v => c.calls heval hn v calls
    | block => exact c.statements heval .zero children
    | conditional => exact c.conditional heval hn
    | loop =>
      obtain ⟨rfl, hend⟩ := hloop rfl
      exact c.loop hend heval hn rounds
    | empty => exact c.pure _
    | definition => exact c.step (.definition (hn _ (.noValue _ _)))
    | closure => exact c.step (.closure (hn _ (.noValue _ _)))
    | plain => exact c.fail (hn _ (.noValue _ _))
    | parameters => exact c.fail (hn _ (.noValue _ _))
    | arguments => exact c.fail (hn _ (.noValue _ _))

end Correspondence

/-! ## At the limit -/

section Limit

variable {α β : Type} {permitted : EvalError → Prop} {f : α → Evaluation β} {rounds : Nat} {n : Node} {s : ScopeId}
  {kind : ListKind} {children : List Node}

/-- nothing comes after a refusal -/
theorem Raises.refused {part : Node} {g : Value → Evaluation α} (he : permitted (.tooDeep part.line?)) :
    Raises permitted (evaluate rounds 0 part s >>= g) := by
  intro h e k hr
  cases hr
  exact ⟨_, rfl, he⟩

theorem Raises.after_need (hn : permitted (.noValue n)) {o : Option α}
    (hf : ∀ a, o = some a → Raises permitted (f a)) : Raises permitted (Evaluation.need n o >>= f) := by
  cases o with
  | some a => exact hf a rfl
  | none =>
    intro h e k hr
    cases hr
    exact ⟨_, rfl, hn⟩

/-- the first child that is refused -/
theorem Node.Fails.first {part : Node} (hkind : kind ∈ [ListKind.negative, .primary, .conditional, .loop])
    (hpart : (Node.list kind children).child? 0 = some part) : (Node.list kind children).Fails (.tooDeep part.line?) := by
  match children, hpart with
  | _ :: _, rfl => exact .deepFirst hkind

theorem raises_binary :
    Raises (Node.list .binary children).Fails (evalBinary (evaluate rounds 0) (.list .binary children) s) := by
  unfold evalBinary
  apply Raises.after_need (.noValue _ _)
  intro left hleft
  apply Raises.after_need (.noValue _ _)
  intro symbol _
  apply Raises.after_need (.noValue _ _)
  intro right hright
  split
  · exact .fail (.malformed rfl)
  · split
    · exact .fail (.operation rfl)
    · exact .refused (.deepPart (by decide) (List.mem_of_getElem? hright))
  · exact .refused (.deepPart (by decide) (List.mem_of_getElem? hleft))

theorem raises_statements {v : Value} {ns : List Node} (hns : ns ⊆ children) :
    Raises (Node.list .block children).Fails (evalStatements (evaluate rounds 0) s v ns) := by
  induction ns with
  | nil => exact .pure v
  | cons n more ih =>
    obtain ⟨hn, hmore⟩ := List.cons_subset.1 hns
    rw [evalStatements]
    split
    · exact ih hmore
    · exact .refused (.deepPart (by decide) hn)

/-- **At the limit the errors are those of the tree**: its parts are refused. -/
theorem fails_at_limit {h k : Heap} {e : EvalError} (hr : (evaluate rounds 1 n s).run h = .error (.raised e) k) :
    n.Fails e := by
  have of_raises : Raises n.Fails (evalNode rounds (evaluate rounds 0) n s) → n.Fails e := by
    intro hraises
    obtain ⟨error, heq, herror⟩ := hraises h _ k hr
    cases heq
    exact herror
  cases n with
  | leaf kind t => exact of_raises (.leaf fun _ he => he)
  | list kind children =>
    cases kind with
    | binary => exact of_raises raises_binary
    | negative =>
      apply of_raises
      apply Raises.after_need (.noValue _ _)
      intro operand hoperand
      exact .refused (.first (by decide) hoperand)
    | primary =>
      cases children with
      | nil => exact of_raises (.fail (.noValue _ _))
      | cons operand calls => exact of_raises (.refused (.deepFirst (by decide)))
    | block => exact of_raises (raises_statements (List.Subset.refl children))
    | conditional =>
      apply of_raises
      apply Raises.after_need (.noValue _ _)
      intro condition hcondition
      exact .refused (.first (by decide) hcondition)
    | loop =>
      cases rounds with
      | zero =>
        -- without a round the only errors are those of missing parts
        change (evalLoop 0 (evaluate 0 0) (.list .loop children) s).run h = _ at hr
        unfold evalLoop at hr
        cases hcondition : (Node.list .loop children).child? 0 with
        | none => rw [hcondition] at hr; cases hr; exact .noValue _ _
        | some condition =>
          cases hbody : (Node.list .loop children).child? 1 with
          | none => rw [hcondition, hbody] at hr; cases hr; exact .noValue _ _
          | some body => rw [hcondition, hbody] at hr; cases hr
      | succ rounds =>
        apply of_raises
        apply Raises.after_need (.noValue _ _)
        intro condition hcondition
        apply Raises.after_need (.noValue _ _)
        intro body _
        exact .refused (.first (by decide) hcondition)
    | empty => exact of_raises (.pure _)
    | definition => exact of_raises (.definition (.noValue _ _))
    | closure => exact of_raises (.closure (.noValue _ _))
    | plain => exact of_raises (.fail (.noValue _ _))
    | parameters => exact of_raises (.fail (.noValue _ _))
    | arguments => exact of_raises (.fail (.noValue _ _))

end Limit

end Stone
