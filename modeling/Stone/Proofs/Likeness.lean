/-
Two evaluations side by side. A likeness says when two trees, values, scopes and heaps are alike, and keeps what
evaluation needs to know of that: alike trees have the same form, alike heaps give alike values for a name, and what one
evaluation does to its heap the other one can do to its own. Which scopes and functions of the two heaps belong together
may change in the course of a run, since new ones are made; a world says which, and it only grows.

Runs end alike with alike values, or with errors that differ in line numbers only. A likeness may excuse a run that goes
too deep, the first one or the second one; nothing is said of the other run then.

- `Likeness.Sim.bind`: actions with alike ends may be put one after the other.
- `Likeness.node_sim`: lists of one kind with alike children have alike ends, if the evaluation of parts has.
- `evalOperand_append`: calls on an operand that come in two lists.
-/
import Mathlib.Order.Basic
import Stone.Evaluate
import Stone.Proofs.Forms

namespace Stone

open Evaluation

/-! ## Operands with calls -/

/-- an operand and the calls on it; errors name the line -/
def evalOperand (eval : Node → ScopeId → Evaluation Value) (s : ScopeId) (line : Option Nat) (operand : Node)
    (calls : List Node) : Evaluation Value := do
  evalCalls eval s line (← eval operand s) calls

theorem evaluate_primary (rounds depth : Nat) (operand : Node) (calls : List Node) (s : ScopeId) :
    evaluate rounds (depth + 1) (.list .primary (operand :: calls)) s =
      evalOperand (evaluate rounds depth) s (Node.list .primary (operand :: calls)).line? operand calls := rfl

theorem evalCalls_append (eval : Node → ScopeId → Evaluation Value) (s : ScopeId) (line : Option Nat) (v : Value)
    (calls more : List Node) :
    evalCalls eval s line v (calls ++ more) = (do evalCalls eval s line (← evalCalls eval s line v calls) more) := by
  induction calls generalizing v with
  | nil => rw [List.nil_append, evalCalls, pure_bind]
  | cons c cs ih =>
    cases c with
    | leaf kind t => rfl
    | list kind arguments =>
      cases kind with
      | arguments =>
        rw [List.cons_append, evalCalls, evalCalls, bind_assoc]
        exact congrArg _ (funext ih)
      | _ => rfl

theorem evalOperand_append (eval : Node → ScopeId → Evaluation Value) (s : ScopeId) (line : Option Nat)
    (operand : Node) (calls more : List Node) :
    evalOperand eval s line operand (calls ++ more) =
      (do evalCalls eval s line (← evalOperand eval s line operand calls) more) := by
  rw [evalOperand, evalOperand, bind_assoc]
  exact congrArg _ (funext fun v => evalCalls_append eval s line v calls more)

/-! ## Operators -/

/-- results that differ in line numbers only and are no functions -/
inductive SameResult : Except EvalError Value → Except EvalError Value → Prop
  | ok {v : Value} : (∀ F, Value.Rel F v v) → SameResult (.ok v) (.ok v)
  | error {e e' : EvalError} : e.withoutLine = e'.withoutLine → SameResult (.error e) (.error e')

theorem inRange_same (line line' : Option Nat) (o : Option Decimal) :
    SameResult (inRange line o) (inRange line' o) := by
  cases o with
  | none => exact .error rfl
  | some d => exact .ok fun _ => .number d

theorem applyToNumbers_same (op : Operator) (a b : Decimal) (line line' : Option Nat) :
    SameResult (applyToNumbers op a b line) (applyToNumbers op a b line') := by
  cases op with
  | add => exact inRange_same ..
  | subtract => exact inRange_same ..
  | multiply => exact inRange_same ..
  | divide =>
    rw [applyToNumbers, applyToNumbers]
    cases b.isZero with
    | true => exact .error rfl
    | false => exact inRange_same ..
  | modulo =>
    rw [applyToNumbers, applyToNumbers]
    cases b.isZero with
    | true => exact .error rfl
    | false => exact inRange_same ..
  | assign => exact .error rfl
  | _ => exact .ok fun _ => .ofBool _

/-! ## Likenesses -/

/-- what can be alike in two runs. The parameters of functions are told from other trees, because functions show how
many children they have. -/
structure Likeness (World : Type) [Preorder World] where
  tree : Node → Node → Prop
  params : Node → Node → Prop
  function : World → Function → Function → Prop
  scope : World → ScopeId → ScopeId → Prop
  heap : World → Heap → Heap → Prop
  /-- is the first run excused if it goes too deep -/
  firstExcused : Prop
  secondExcused : Prop
  form {n m : Node} : tree n m → n.SameForm m
  arguments {ns ms : List Node} : tree (.list .arguments ns) (.list .arguments ms) → List.Forall₂ tree ns ms
  function_name {w : World} {f g : Function} : function w f g → f.name = g.name
  function_params {w : World} {f g : Function} :
    function w f g → List.Forall₂ Node.SameForm f.params.children g.params.children
  function_body {w : World} {f g : Function} : function w f g → tree f.body g.body
  function_scope {w : World} {f g : Function} : function w f g → scope w f.scope g.scope
  function_id {w : World} {f g f' g' : Function} : function w f g → function w f' g' → (f.id = f'.id ↔ g.id = g'.id)
  function_mono {w w' : World} {f g : Function} : w ≤ w' → function w f g → function w' f g
  scope_mono {w w' : World} {s t : ScopeId} : w ≤ w' → scope w s t → scope w' s t
  heap_get {w : World} {h k : Heap} {s t : ScopeId} (name : String) : heap w h k → scope w s t →
    Option.Rel (Value.Rel (function w)) (h.get? s name) (k.get? t name)
  heap_put {w : World} {h k : Heap} {s t : ScopeId} {a b : Value} (name : String) : heap w h k → scope w s t →
    Value.Rel (function w) a b → heap w (h.put s name a) (k.put t name b)
  heap_putNew {w : World} {h k : Heap} {s t : ScopeId} {a b : Value} (name : String) : heap w h k → scope w s t →
    Value.Rel (function w) a b → heap w (h.putNew s name a) (k.putNew t name b)
  scope_new {w : World} {h k : Heap} {s t : ScopeId} : heap w h k → scope w s t →
    ∃ w', w ≤ w' ∧ scope w' (h.newScope (some s)).1 (k.newScope (some t)).1 ∧
      heap w' (h.newScope (some s)).2 (k.newScope (some t)).2
  function_new {w : World} {h k : Heap} {s t : ScopeId} {p q b c : Node} (name : Option String) : heap w h k →
    scope w s t → params p q → tree b c →
    ∃ w', w ≤ w' ∧ function w' ⟨h.functionCount, name, p, b, s⟩ ⟨k.functionCount, name, q, c, t⟩ ∧
      heap w' { h with functionCount := h.functionCount + 1 } { k with functionCount := k.functionCount + 1 }

namespace Likeness

variable {World : Type} [Preorder World] (L : Likeness World) {w w' : World}

/-- alike values -/
def value (w : World) : Value → Value → Prop := Value.Rel (L.function w)

/-- ends of two runs that are alike in a world that has grown, or a run that is excused -/
inductive Ends {α β : Type} (R : World → α → β → Prop) (w : World) :
    EStateM.Result (Stop EvalError) Heap α → EStateM.Result (Stop EvalError) Heap β → Prop
  | first {line : Option Nat} {h : Heap} {r : EStateM.Result (Stop EvalError) Heap β} :
      L.firstExcused → Ends R w (.error (.raised (.tooDeep line)) h) r
  | second {line : Option Nat} {k : Heap} {r : EStateM.Result (Stop EvalError) Heap α} :
      L.secondExcused → Ends R w r (.error (.raised (.tooDeep line)) k)
  | ok {w' : World} {a : α} {b : β} {h k : Heap} : w ≤ w' → R w' a b → L.heap w' h k → Ends R w (.ok a h) (.ok b k)
  | error {w' : World} {e e' : Stop EvalError} {h k : Heap} : w ≤ w' →
      e.map EvalError.withoutLine = e'.map EvalError.withoutLine → L.heap w' h k → Ends R w (.error e h) (.error e' k)

/-- on alike heaps the two actions have alike ends -/
def Sim {α β : Type} (w : World) (R : World → α → β → Prop) (p : Evaluation α) (q : Evaluation β) : Prop :=
  ∀ h k, L.heap w h k → L.Ends R w (p.run h) (q.run k)

/-- the parts that evaluation goes down to have alike ends, in every world -/
def SimEval (eval eval' : Node → ScopeId → Evaluation Value) : Prop :=
  ∀ w n m s t, L.tree n m → L.scope w s t → L.Sim w L.value (eval n s) (eval' m t)

variable {L}

/-! ## Actions -/

section Rules

variable {α β γ δ : Type} {R : World → α → β → Prop} {S : World → γ → δ → Prop} {p : Evaluation α} {q : Evaluation β}
  {f : α → Evaluation γ} {g : β → Evaluation δ}

theorem Ends.weaken {r : EStateM.Result (Stop EvalError) Heap α} {r' : EStateM.Result (Stop EvalError) Heap β}
    (hw : w ≤ w') (h : L.Ends R w' r r') : L.Ends R w r r' := by
  cases h with
  | first he => exact .first he
  | second he => exact .second he
  | ok hw' hab hk => exact .ok (hw.trans hw') hab hk
  | error hw' he hk => exact .error (hw.trans hw') he hk

theorem Sim.pure {a : α} {b : β} (h : R w a b) : L.Sim w R (Pure.pure a : Evaluation α) (Pure.pure b : Evaluation β) :=
  fun _ _ hk => .ok le_rfl h hk

theorem Sim.fail {e e' : EvalError} (he : e.withoutLine = e'.withoutLine) :
    L.Sim w R (Evaluation.fail e : Evaluation α) (Evaluation.fail e' : Evaluation β) :=
  fun _ _ hk => .error le_rfl (congrArg Stop.raised he) hk

theorem Sim.endless : L.Sim w R (throw .endless : Evaluation α) (throw .endless : Evaluation β) :=
  fun _ _ hk => .error le_rfl rfl hk

/-- **Actions one after the other**, the later ones in the world that the earlier ones leave. -/
theorem Sim.bind (hp : L.Sim w R p q) (hf : ∀ w', w ≤ w' → ∀ a b, R w' a b → L.Sim w' S (f a) (g b)) :
    L.Sim w S (p >>= f) (q >>= g) := by
  intro h k hk
  have h1 := hp h k hk
  rw [EStateM.run_bind, EStateM.run_bind]
  generalize p.run h = r at h1
  generalize q.run k = r' at h1
  cases h1 with
  | first he => exact .first he
  | second he => exact .second he
  | ok hw hab hk' => exact (hf _ hw _ _ hab _ _ hk').weaken hw
  | error hw he hk' => exact .error hw he hk'

theorem Sim.update {u v : Heap → Heap} (hu : ∀ h k, L.heap w h k → L.heap w (u h) (v k)) :
    L.Sim w (fun _ _ _ => True) (modify u : Evaluation Unit) (modify v : Evaluation Unit) :=
  fun h k hk => .ok le_rfl trivial (hu h k hk)

/-- a part of the tree that is there in both or in none -/
theorem need_sim {n m : Node} (hl : n.label = m.label) {T : α → β → Prop} {a : Option α} {b : Option β}
    (h : Option.Rel T a b) : L.Sim w (fun _ => T) (need n a) (need m b) := by
  cases h with
  | some hab => exact Sim.pure hab
  | none =>
    refine Sim.fail ?_
    rw [EvalError.noValue, EvalError.noValue, EvalError.withoutLine, EvalError.withoutLine, hl]

end Rules

/-! ## Functions and values -/

theorem arity_eq {f g : Function} (h : L.function w f g) : f.arity = g.arity := (L.function_params h).length_eq

theorem paramNames_eq {f g : Function} (h : L.function w f g) : f.paramNames = g.paramNames :=
  Node.texts_eq (L.function_params h)

theorem display_eq {a b : Value} (h : L.value w a b) : a.display = b.display := by
  cases h with
  | @function f g hf =>
    rw [Value.display, Value.display, Function.display, Function.display, paramNames_eq hf, L.function_name hf]
  | _ => rfl

theorem looselyEqual_eq {a a' b b' : Value} (ha : L.value w a a') (hb : L.value w b b') :
    looselyEqual a b = looselyEqual a' b' := by
  cases ha with
  | function hf =>
    cases hb with
    | function hg =>
      show (_ == _) = (_ == _)
      rw [Bool.eq_iff_iff, beq_iff_eq, beq_iff_eq]
      exact L.function_id hf hg
    | _ => rfl
  | _ => cases hb <;> rfl

theorem applyOperator_same {a a' b b' : Value} (op : Operator) (line line' : Option Nat) (ha : L.value w a a')
    (hb : L.value w b b') : SameResult (applyOperator op a b line) (applyOperator op a' b' line') := by
  have heq := looselyEqual_eq ha hb
  have hda := display_eq ha
  have hdb := display_eq hb
  cases op with
  | equal =>
    rw [applyOperator, applyOperator, heq]
    exact .ok fun _ => .ofBool _
  | add =>
    cases ha <;> cases hb <;> simp only [applyOperator] <;>
      first | exact applyToNumbers_same .. | (rw [hda, hdb]; exact .ok fun _ => .string _)
  | _ =>
    cases ha <;> cases hb <;> simp only [applyOperator] <;>
      first | exact applyToNumbers_same .. | exact .error rfl

/-! ## Trees -/

section Trees

variable {eval eval' : Node → ScopeId → Evaluation Value} {s t : ScopeId} {ns ms : List Node}

/-- a child, if it is there -/
theorem child_sim (kind : ListKind) (h : List.Forall₂ L.tree ns ms) (i : Nat) :
    L.Sim w (fun _ => L.tree) (need (.list kind ns) ((Node.list kind ns).child? i))
      (need (.list kind ms) ((Node.list kind ms).child? i)) :=
  need_sim (n := .list kind ns) (m := .list kind ms) rfl (getElem?_rel h i)

/-- the token of a child -/
theorem childToken_sim (kind : ListKind) (h : List.Forall₂ L.tree ns ms) (i : Nat) :
    L.Sim w (fun _ (t u : Token) => t.lexeme = u.lexeme)
      (need (.list kind ns) (((Node.list kind ns).child? i).bind Node.token?))
      (need (.list kind ms) (((Node.list kind ms).child? i).bind Node.token?)) := by
  refine need_sim (n := .list kind ns) (m := .list kind ms) rfl ?_
  have hi := getElem?_rel h i
  simp only [Node.child?, Node.children]
  generalize ns[i]? = a at hi
  generalize ms[i]? = b at hi
  cases hi with
  | none => exact .none
  | some hab => exact (L.form hab).token

theorem leaf_sim {kind : LeafKind} {a b : Token} (h : a.lexeme = b.lexeme) (hs : L.scope w s t) :
    L.Sim w L.value (evalLeaf kind a s) (evalLeaf kind b t) := by
  have ht : a.text = b.text := by rw [Token.text, Token.text, h]
  cases kind with
  | mark => exact Sim.fail rfl
  | number =>
    simp only [evalLeaf, h]
    cases b.lexeme with
    | number d => exact Sim.pure (.number d)
    | _ => exact Sim.fail rfl
  | string =>
    rw [evalLeaf, evalLeaf, ht]
    exact Sim.pure (.string _)
  | name =>
    intro h k hk
    rw [run_evalLeaf_name, run_evalLeaf_name, ht]
    have hget := L.heap_get b.text hk hs
    generalize h.get? s b.text = x at hget
    generalize k.get? t b.text = y at hget
    cases hget with
    | none => exact .error le_rfl rfl hk
    | some hv => exact .ok le_rfl hv hk

theorem binary_sim (heval : L.SimEval eval eval') (h : List.Forall₂ L.tree ns ms) (hs : L.scope w s t) :
    L.Sim w L.value (evalBinary eval (.list .binary ns) s) (evalBinary eval' (.list .binary ms) t) := by
  unfold evalBinary
  refine Sim.bind (child_sim _ h 0) fun w hw left left' hl => ?_
  replace hs := L.scope_mono hw hs
  refine Sim.bind (childToken_sim _ h 1) fun w hw op op' ho => ?_
  replace hs := L.scope_mono hw hs
  refine Sim.bind (child_sim _ h 2) fun w hw right right' hr => ?_
  replace hs := L.scope_mono hw hs
  have ht : op.text = op'.text := by rw [Token.text, Token.text, ho]
  rw [ht, (L.form hl).name_eq]
  split
  · exact Sim.fail rfl
  · split
    · exact Sim.fail rfl
    · refine Sim.bind (heval _ _ _ s t hr hs) fun w hw v v' hv => ?_
      replace hs := L.scope_mono hw hs
      exact Sim.bind (Sim.update fun _ _ hk => L.heap_put _ hk hs hv) fun w hw _ _ _ =>
        Sim.pure (hv.mono fun _ _ => L.function_mono hw)
  · rename_i o _ _
    refine Sim.bind (heval _ _ _ s t hl hs) fun w hw a a' ha => ?_
    replace hs := L.scope_mono hw hs
    refine Sim.bind (heval _ _ _ s t hr hs) fun w hw b b' hb => ?_
    replace ha := ha.mono fun _ _ => L.function_mono hw
    have hsame := applyOperator_same o (Node.list .binary ns).line? (Node.list .binary ms).line? ha hb
    generalize applyOperator o a b (Node.list .binary ns).line? = x at hsame
    generalize applyOperator o a' b' (Node.list .binary ms).line? = y at hsame
    cases hsame with
    | ok hv => exact Sim.pure (hv _)
    | error he => exact Sim.fail he

theorem negative_sim (heval : L.SimEval eval eval') (h : List.Forall₂ L.tree ns ms) (hs : L.scope w s t) :
    L.Sim w L.value (evalNegative eval (.list .negative ns) s) (evalNegative eval' (.list .negative ms) t) := by
  unfold evalNegative
  refine Sim.bind (child_sim _ h 0) fun w hw n m hn => ?_
  refine Sim.bind (heval _ n m s t hn (L.scope_mono hw hs)) fun w hw v v' hv => ?_
  cases hv with
  | number d => exact Sim.pure (.number d.neg)
  | _ => exact Sim.fail rfl

theorem arguments_sim {caller caller' inner inner' : ScopeId} (heval : L.SimEval eval eval') (names : List String)
    (h : List.Forall₂ L.tree ns ms) (hc : L.scope w caller caller') (hi : L.scope w inner inner') :
    L.Sim w (fun _ _ _ => True) (bindArguments eval caller inner (names.zip ns))
      (bindArguments eval' caller' inner' (names.zip ms)) := by
  induction h generalizing names w with
  | nil =>
    rw [List.zip_nil_right]
    exact Sim.pure trivial
  | cons hab _ ih =>
    cases names with
    | nil => exact Sim.pure trivial
    | cons name names =>
      refine Sim.bind (heval _ _ _ caller caller' hab hc) fun w hw v v' hv => ?_
      replace hc := L.scope_mono hw hc
      replace hi := L.scope_mono hw hi
      refine Sim.bind (Sim.update fun _ _ hk => L.heap_putNew name hk hi hv) fun w hw _ _ _ => ?_
      exact ih names (L.scope_mono hw hc) (L.scope_mono hw hi)

theorem call_sim {v v' : Value} {line line' : Option Nat} (heval : L.SimEval eval eval') (hv : L.value w v v')
    (h : List.Forall₂ L.tree ns ms) (hs : L.scope w s t) :
    L.Sim w L.value (call eval v ns s line) (call eval' v' ms t line') := by
  cases hv with
  | @function f g hf =>
    rw [call, call, arity_eq hf, h.length_eq, paramNames_eq hf]
    split
    · exact Sim.fail rfl
    · have hnew : L.Sim w L.scope (modifyGet (Heap.newScope (some f.scope)) : Evaluation ScopeId)
          (modifyGet (Heap.newScope (some g.scope)) : Evaluation ScopeId) := by
        intro h k hk
        obtain ⟨w', hw, hinner, hk'⟩ := L.scope_new hk (L.function_scope hf)
        exact .ok hw hinner hk'
      refine Sim.bind hnew fun w hw inner inner' hi => ?_
      refine Sim.bind (arguments_sim heval _ h (L.scope_mono hw hs) hi) fun w hw _ _ _ => ?_
      exact heval _ _ _ inner inner' (L.function_body hf) (L.scope_mono hw hi)
  | _ => exact Sim.fail rfl

theorem calls_sim {v v' : Value} {line line' : Option Nat} (heval : L.SimEval eval eval') (hv : L.value w v v')
    (h : List.Forall₂ L.tree ns ms) (hs : L.scope w s t) :
    L.Sim w L.value (evalCalls eval s line v ns) (evalCalls eval' t line' v' ms) := by
  induction h generalizing v v' w with
  | nil => exact Sim.pure hv
  | @cons n m _ _ hn _ ih =>
    cases L.form hn with
    | leaf _ => exact Sim.fail rfl
    | @list kind as bs =>
      cases kind with
      | arguments =>
        rw [evalCalls, evalCalls]
        exact Sim.bind (call_sim heval hv (L.arguments hn) hs) fun w hw u u' hu => ih hu (L.scope_mono hw hs)
      | _ => exact Sim.fail rfl

theorem statements_sim {v v' : Value} (heval : L.SimEval eval eval') (hv : L.value w v v')
    (h : List.Forall₂ L.tree ns ms) (hs : L.scope w s t) :
    L.Sim w L.value (evalStatements eval s v ns) (evalStatements eval' t v' ms) := by
  induction h generalizing v v' w with
  | nil => exact Sim.pure hv
  | cons hn _ ih =>
    rw [evalStatements, evalStatements, (L.form hn).is_eq]
    split
    · exact ih hv hs
    · exact Sim.bind (heval _ _ _ s t hn hs) fun w hw u u' hu => ih hu (L.scope_mono hw hs)

theorem conditional_sim (heval : L.SimEval eval eval') (h : List.Forall₂ L.tree ns ms) (hs : L.scope w s t) :
    L.Sim w L.value (evalConditional eval (.list .conditional ns) s)
      (evalConditional eval' (.list .conditional ms) t) := by
  unfold evalConditional
  refine Sim.bind (child_sim _ h 0) fun w hw n m hn => ?_
  replace hs := L.scope_mono hw hs
  refine Sim.bind (heval _ n m s t hn hs) fun w hw v v' hv => ?_
  replace hs := L.scope_mono hw hs
  rw [hv.isTruthy_eq]
  split
  · exact Sim.bind (child_sim _ h 1) fun w hw n m hn => heval _ n m s t hn (L.scope_mono hw hs)
  · have hi := getElem?_rel h 2
    simp only [Node.child?, Node.children]
    generalize ns[2]? = a at hi
    generalize ms[2]? = b at hi
    cases hi with
    | none => exact Sim.pure (.number _)
    | some hab => exact heval _ _ _ s t hab hs

theorem rounds_sim {condition condition' body body' : Node} {rounds : Nat} {v v' : Value} (heval : L.SimEval eval eval')
    (hc : L.tree condition condition') (hb : L.tree body body') (hv : L.value w v v') (hs : L.scope w s t) :
    L.Sim w L.value (evalRounds eval condition body s rounds v) (evalRounds eval' condition' body' t rounds v') := by
  induction rounds generalizing v v' w with
  | zero => exact Sim.endless
  | succ rounds ih =>
    rw [evalRounds, evalRounds]
    refine Sim.bind (heval _ _ _ s t hc hs) fun w hw c c' hcc => ?_
    replace hs := L.scope_mono hw hs
    rw [hcc.isTruthy_eq]
    split
    · exact Sim.bind (heval _ _ _ s t hb hs) fun w hw u u' hu => ih hu (L.scope_mono hw hs)
    · exact Sim.pure (hv.mono fun _ _ => L.function_mono hw)

theorem loop_sim {rounds : Nat} (heval : L.SimEval eval eval') (h : List.Forall₂ L.tree ns ms) (hs : L.scope w s t) :
    L.Sim w L.value (evalLoop rounds eval (.list .loop ns) s) (evalLoop rounds eval' (.list .loop ms) t) := by
  unfold evalLoop
  refine Sim.bind (child_sim _ h 0) fun w hw c c' hc => ?_
  replace hs := L.scope_mono hw hs
  refine Sim.bind (child_sim _ h 1) fun w hw b b' hb => ?_
  exact rounds_sim heval hc hb (.number _) (L.scope_mono hw hs)

theorem newFunction_sim (name : Option String) {p q b c : Node} (hp : L.params p q) (hb : L.tree b c)
    (hs : L.scope w s t) : L.Sim w L.value (newFunction name p b s) (newFunction name q c t) := by
  intro h k hk
  obtain ⟨w', hw, hf, hk'⟩ := L.function_new name hk hs hp hb
  exact .ok hw (.function hf) hk'

theorem definition_sim (h : List.Forall₂ L.tree ns ms) (hp : Option.Rel L.params ns[1]? ms[1]?) (hs : L.scope w s t) :
    L.Sim w L.value (evalDefinition (.list .definition ns) s) (evalDefinition (.list .definition ms) t) := by
  unfold evalDefinition
  refine Sim.bind (childToken_sim _ h 0) fun w hw name name' hname => ?_
  replace hs := L.scope_mono hw hs
  refine Sim.bind (need_sim (n := .list .definition ns) (m := .list .definition ms) rfl hp) fun w hw p q hpq => ?_
  replace hs := L.scope_mono hw hs
  refine Sim.bind (child_sim _ h 2) fun w hw b c hb => ?_
  replace hs := L.scope_mono hw hs
  have ht : name.text = name'.text := by rw [Token.text, Token.text, hname]
  rw [ht]
  refine Sim.bind (newFunction_sim _ hpq hb hs) fun w hw v v' hv => ?_
  replace hs := L.scope_mono hw hs
  exact Sim.bind (Sim.update fun _ _ hk => L.heap_putNew _ hk hs hv) fun w hw _ _ _ => Sim.pure (.string _)

theorem closure_sim (h : List.Forall₂ L.tree ns ms) (hp : Option.Rel L.params ns[0]? ms[0]?) (hs : L.scope w s t) :
    L.Sim w L.value (evalClosure (.list .closure ns) s) (evalClosure (.list .closure ms) t) := by
  unfold evalClosure
  refine Sim.bind (need_sim (n := .list .closure ns) (m := .list .closure ms) rfl hp) fun w hw p q hpq => ?_
  replace hs := L.scope_mono hw hs
  refine Sim.bind (child_sim _ h 1) fun w hw b c hb => ?_
  exact newFunction_sim none hpq hb (L.scope_mono hw hs)

/-- **Lists of one kind** with alike children, and with alike parameters if they make functions. -/
theorem node_sim {rounds : Nat} {kind : ListKind} (heval : L.SimEval eval eval') (h : List.Forall₂ L.tree ns ms)
    (hp : ∀ i, kind.paramsPlace? = some i → Option.Rel L.params ns[i]? ms[i]?) (hs : L.scope w s t) :
    L.Sim w L.value (evalNode rounds eval (.list kind ns) s) (evalNode rounds eval' (.list kind ms) t) := by
  cases kind with
  | binary => exact binary_sim heval h hs
  | negative => exact negative_sim heval h hs
  | primary =>
    cases h with
    | nil => exact Sim.fail rfl
    | cons hn hrest =>
      exact Sim.bind (heval _ _ _ s t hn hs) fun w hw v v' hv => calls_sim heval hv hrest (L.scope_mono hw hs)
  | block => exact statements_sim heval (.number _) h hs
  | conditional => exact conditional_sim heval h hs
  | loop => exact loop_sim heval h hs
  | empty => exact Sim.pure .unit
  | definition => exact definition_sim h (hp 1 rfl) hs
  | closure => exact closure_sim h (hp 0 rfl) hs
  | plain => exact Sim.fail rfl
  | parameters => exact Sim.fail rfl
  | arguments => exact Sim.fail rfl

/-- an operand and the calls on it, in whatever lines their errors are -/
theorem operand_sim {a b : Node} (heval : L.SimEval eval eval') (hab : L.tree a b) (h : List.Forall₂ L.tree ns ms)
    (line line' : Option Nat) (hs : L.scope w s t) :
    L.Sim w L.value (evalOperand eval s line a ns) (evalOperand eval' t line' b ms) :=
  Sim.bind (heval _ _ _ s t hab hs) fun _ hw _ _ hv => calls_sim heval hv h (L.scope_mono hw hs)

end Trees

end Likeness

end Stone
