/-
Invariants of evaluation. An invariant says which heaps, values and trees are in order. What it has to meet are facts
about single changes: a binding that is made, a function that is made, a scope that a call opens. That evaluation keeps
it, whatever the tree and however the run ends, is proved here once for all of them.

A heap only grows, and what is known of its scopes grows with it: an invariant speaks about worlds, which say what is
known, and what is in order stays so in later worlds.

- `Enters`: the trees, scopes and heaps that an evaluation comes to on its way.
- `Invariant.evaluate_keeps`: evaluation of a tree that is in order keeps the heap in order, and its value is in order.
- `Invariant.enters_inv`: so is everything that it comes to on its way.
-/
import Stone.Proofs.Scopes
import Stone.Session
import Stone.Symbols

namespace Stone

open Evaluation

/-! ## Watched evaluation -/

/-- evaluation that stops with an alarm at the first tree that it comes to in a scope and a heap that is waited for -/
def evaluateUntil (awaited : Node → ScopeId → Heap → Bool) (alarm : Stop EvalError) (rounds : Nat) :
    Nat → Node → ScopeId → Evaluation Value
  | 0, n, s => do if awaited n s (← get) then throw alarm else fail (.tooDeep n.line?)
  | depth + 1, n, s => do
    if awaited n s (← get) then throw alarm else evalNode rounds (evaluateUntil awaited alarm rounds depth) n s

theorem evaluateUntil_never (alarm : Stop EvalError) (rounds depth : Nat) :
    evaluateUntil (fun _ _ _ => false) alarm rounds depth = evaluate rounds depth := by
  induction depth with
  | zero => rfl
  | succ depth ih =>
    funext n s
    rw [evaluateUntil, evaluate, ih]
    rfl

/-- the action ends with the alarm -/
def Stopped {α : Type} (alarm : Stop EvalError) (p : Evaluation α) (h : Heap) : Prop := ∃ k, p.run h = .error alarm k

/-- **Evaluation of `n` in `s` on `h` comes to `m` in `u` on `k`**: whoever waits for that stops it, at the latest
there. -/
def Enters (rounds depth : Nat) (n : Node) (s : ScopeId) (h : Heap) (m : Node) (u : ScopeId) (k : Heap) : Prop :=
  ∀ awaited alarm, awaited m u k = true → Stopped alarm (evaluateUntil awaited alarm rounds depth n s) h

section Watch

variable {awaited : Node → ScopeId → Heap → Bool} {alarm : Stop EvalError} {rounds d : Nat} {s : ScopeId} {h : Heap}

theorem run_evaluateUntil_zero (n : Node) :
    (evaluateUntil awaited alarm rounds 0 n s).run h =
      (if awaited n s h then throw alarm else fail (.tooDeep n.line?) : Evaluation Value).run h := rfl

theorem run_evaluateUntil (n : Node) :
    (evaluateUntil awaited alarm rounds (d + 1) n s).run h =
      (if awaited n s h then throw alarm
        else evalNode rounds (evaluateUntil awaited alarm rounds d) n s : Evaluation Value).run h := rfl

/-- an evaluation is stopped where it is waited for -/
theorem stopped_here {n : Node} (ha : awaited n s h = true) :
    Stopped alarm (evaluateUntil awaited alarm rounds (d + 1) n s) h := by
  refine ⟨h, ?_⟩
  rw [run_evaluateUntil, if_pos ha]
  rfl

/-- an evaluation is stopped before or at the parts that are stopped -/
theorem stopped_inside {n : Node}
    (hparts : Stopped alarm (evalNode rounds (evaluateUntil awaited alarm rounds d) n s) h) :
    Stopped alarm (evaluateUntil awaited alarm rounds (d + 1) n s) h := by
  rw [Stopped, run_evaluateUntil]
  split
  · exact ⟨h, rfl⟩
  · exact hparts

theorem stopped_leaf {kind : LeafKind} {t : Token} {v : Value} (hv : (evalLeaf kind t s).run h = .ok v h) :
    (evaluateUntil awaited alarm rounds (d + 1) (.leaf kind t) s).run h = .ok v h ∨
      Stopped alarm (evaluateUntil awaited alarm rounds (d + 1) (.leaf kind t) s) h := by
  rw [Stopped, run_evaluateUntil]
  split
  · exact .inr ⟨h, rfl⟩
  · exact .inl hv

variable {α β : Type} {p : Evaluation α} {f : α → Evaluation β}

theorem stopped_first (hp : Stopped alarm p h) : Stopped alarm (p >>= f) h := by
  obtain ⟨k, hk⟩ := hp
  exact ⟨k, by rw [EStateM.run_bind, hk]⟩

/-- an action is stopped at its first step or, where that gives a result, later on -/
theorem stopped_bind {a : α} {k : Heap} (hp : p.run h = .ok a k ∨ Stopped alarm p h) (hf : Stopped alarm (f a) k) :
    Stopped alarm (p >>= f) h := by
  rcases hp with hp | hp
  · rw [Stopped, EStateM.run_bind, hp]
    exact hf
  · exact stopped_first hp

end Watch

/-- the parameters and the body of the function that a tree makes -/
def Node.function? : Node → Option (Node × Node)
  | .list .definition (_ :: params :: body :: _) => some (params, body)
  | .list .closure (params :: body :: _) => some (params, body)
  | _ => none

/-! ## Invariants -/

/-- what may be known of a run, and what is then in order -/
structure Invariant where
  World : Type
  /-- the second world knows all that the first one knows -/
  Later : World → World → Prop
  heap : World → Heap → Prop
  value : World → Value → Prop
  /-- may the tree be evaluated in the scope -/
  tree : World → Node → ScopeId → Prop
  /-- is the scope that of a call of the function -/
  activation : World → Function → ScopeId → Prop
  refl : ∀ w, Later w w
  trans : ∀ {w₁ w₂ w₃}, Later w₁ w₂ → Later w₂ w₃ → Later w₁ w₃
  value_later : ∀ {w w' v}, Later w w' → value w v → value w' v
  tree_later : ∀ {w w' n s}, Later w w' → tree w n s → tree w' n s
  activation_later : ∀ {w w' f s}, Later w w' → activation w f s → activation w' f s
  data : ∀ {w v}, v.function? = none → value w v
  part : ∀ {w kind children n s}, tree w (.list kind children) s → kind.makesFunction = false → n ∈ children →
    tree w n s
  found : ∀ {w h t s v}, heap w h → tree w (.leaf .name t) s → h.get? s t.text = some v → value w v
  assigned : ∀ {w h left mark right more name s v}, heap w h →
    tree w (.list .binary (left :: mark :: right :: more)) s → Symbols.assigned? left mark = some name → value w v →
    heap w (h.put s name v)
  made : ∀ {w h n params body name s}, heap w h → tree w n s → n.function? = some (params, body) →
    value w (.function ⟨h.functionCount, name, params, body, s⟩) ∧
      heap w { h with functionCount := h.functionCount + 1 }
  defined : ∀ {w h name params body more s v}, heap w h →
    tree w (.list .definition (name :: params :: body :: more)) s → value w v → ∀ t, name.token? = some t →
    heap w (h.putNew s t.text v)
  called : ∀ {w h f}, heap w h → value w (.function f) →
    ∃ w', Later w w' ∧ heap w' (h.newScope (some f.scope)).2 ∧ activation w' f h.scopes.size
  parameter : ∀ {w h f s name v}, heap w h → activation w f s → name ∈ f.paramNames → value w v →
    heap w (h.putNew s name v)
  body : ∀ {w f s}, activation w f s → tree w f.body s

namespace Invariant

variable {I : Invariant} {w : I.World}

/-- an error that evaluation itself does not raise: undefined names are on a line -/
def alarm : Stop EvalError := .raised (.undefinedName "" none)

/-- from a heap in order the action comes to one in order, and its result has the property `P`; no alarm is raised -/
def Kept (I : Invariant) (w : I.World) {α : Type} (p : Evaluation α) (P : I.World → α → Prop) : Prop :=
  ∀ h, I.heap w h →
    match p.run h with
    | .ok a h' => ∃ w', I.Later w w' ∧ I.heap w' h' ∧ P w' a
    | .error e h' => e ≠ alarm ∧ ∃ w', I.Later w w' ∧ I.heap w' h'

section Rules

variable {α β : Type} {p : Evaluation α} {f : α → Evaluation β} {P : I.World → α → Prop} {Q : I.World → β → Prop}

theorem Kept.pure {a : α} (h : P w a) : I.Kept w (Pure.pure a : Evaluation α) P := fun _ hh => ⟨w, I.refl w, hh, h⟩

theorem Kept.fail {e : EvalError} (he : e ≠ .undefinedName "" none) : I.Kept w (Evaluation.fail e : Evaluation α) P :=
  fun _ hh => ⟨fun h => he (Stop.raised.inj h), w, I.refl w, hh⟩

theorem Kept.endless : I.Kept w (throw .endless : Evaluation α) P := fun _ hh => ⟨nofun, w, I.refl w, hh⟩

theorem Kept.bind (hp : I.Kept w p P) (hf : ∀ w' a, I.Later w w' → P w' a → I.Kept w' (f a) Q) :
    I.Kept w (p >>= f) Q := by
  intro h hh
  have h1 := hp h hh
  rw [EStateM.run_bind]
  cases hr : p.run h with
  | error e h' =>
    rw [hr] at h1
    exact h1
  | ok a h' =>
    rw [hr] at h1
    obtain ⟨w', hw, hh', ha⟩ := h1
    have h2 := hf w' a hw ha h' hh'
    show match (f a).run h' with
      | .ok b h'' => _
      | .error e h'' => _
    cases hr' : (f a).run h' with
    | error e h'' =>
      rw [hr'] at h2
      obtain ⟨he, w'', hw', hh''⟩ := h2
      exact ⟨he, w'', I.trans hw hw', hh''⟩
    | ok b h'' =>
      rw [hr'] at h2
      obtain ⟨w'', hw', hh'', hb⟩ := h2
      exact ⟨w'', I.trans hw hw', hh'', hb⟩

theorem Kept.update {g : Heap → Heap} (hg : ∀ h, I.heap w h → I.heap w (g h)) :
    I.Kept w (modify g : Evaluation Unit) fun _ _ => True := fun h hh => ⟨w, I.refl w, hg h hh, trivial⟩

/-- a part that is there is the one asked for -/
theorem Kept.need (n : Node) (o : Option α) : I.Kept w (Evaluation.need n o) fun w' a => w = w' ∧ o = some a := by
  cases o with
  | some a => exact Kept.pure ⟨rfl, rfl⟩
  | none => exact Kept.fail nofun

end Rules

/-! ## Trees -/

section Trees

variable {eval : Node → ScopeId → Evaluation Value} {s : ScopeId} {children : List Node}

/-- the parts that evaluation goes down to keep the invariant -/
def KeptEval (I : Invariant) (eval : Node → ScopeId → Evaluation Value) : Prop :=
  ∀ w n s, I.tree w n s → I.Kept w (eval n s) I.value

theorem number_value (d : Decimal) : I.value w (.number d) := I.data rfl

theorem evalLeaf_kept {kind : LeafKind} {t : Token} (ht : I.tree w (.leaf kind t) s) :
    I.Kept w (evalLeaf kind t s) I.value := by
  cases kind with
  | mark => exact Kept.fail nofun
  | string => exact Kept.pure (I.data rfl)
  | number =>
    rw [evalLeaf]
    split
    · exact Kept.pure (number_value _)
    · exact Kept.fail nofun
  | name =>
    intro h hh
    rw [run_evalLeaf_name]
    cases hg : h.get? s t.text with
    | none => exact ⟨by simp [alarm], w, I.refl w, hh⟩
    | some v => exact ⟨w, I.refl w, hh, I.found hh ht hg⟩

/-- a result without functions, or an error that is about no name -/
def PlainResult : Except EvalError Value → Prop
  | .ok v => v.function? = none
  | .error e => ∀ name line, e ≠ .undefinedName name line

theorem inRange_plain {line : Option Nat} {o : Option Decimal} : PlainResult (inRange line o) := by
  cases o with
  | none => exact nofun
  | some d => exact rfl

theorem applyToNumbers_plain {op : Operator} {a b : Decimal} {line : Option Nat} :
    PlainResult (applyToNumbers op a b line) := by
  cases op with
  | add => exact inRange_plain
  | subtract => exact inRange_plain
  | multiply => exact inRange_plain
  | divide =>
    rw [applyToNumbers]
    cases b.isZero with
    | true => exact nofun
    | false => exact inRange_plain
  | modulo =>
    rw [applyToNumbers]
    cases b.isZero with
    | true => exact nofun
    | false => exact inRange_plain
  | assign => exact nofun
  | _ => exact rfl

theorem applyOperator_plain {op : Operator} {a b : Value} {line : Option Nat} :
    PlainResult (applyOperator op a b line) := by
  unfold applyOperator
  split
  · exact rfl
  · exact applyToNumbers_plain
  · exact rfl
  · exact nofun

/-- an assignment is one of the binary nodes whose left side is bound -/
theorem assigned_of_symbol {left mark : Node} {symbol : Token} {name : String} (hm : mark.token? = some symbol)
    (ho : Operator.ofSymbol? symbol.text = some .assign) (hn : left.name? = some name) :
    Symbols.assigned? left mark = some name := by
  rw [Symbols.assigned?, hm]
  simp only
  rw [if_pos ho, hn]

theorem evalBinary_kept (heval : I.KeptEval eval) (ht : I.tree w (.list .binary children) s) :
    I.Kept w (evalBinary eval (.list .binary children) s) I.value := by
  unfold evalBinary
  refine Kept.bind (Kept.need _ _) fun _ left _ hl => ?_
  obtain ⟨rfl, hl⟩ := hl
  refine Kept.bind (Kept.need _ _) fun _ symbol _ hs => ?_
  obtain ⟨rfl, hs⟩ := hs
  refine Kept.bind (Kept.need _ _) fun _ right _ hr => ?_
  obtain ⟨rfl, hr⟩ := hr
  obtain ⟨mark, hm, hs⟩ := Option.bind_eq_some_iff.1 hs
  have hleft : I.tree w left s := I.part ht rfl (List.mem_of_getElem? hl)
  have hright : I.tree w right s := I.part ht rfl (List.mem_of_getElem? hr)
  split
  · exact Kept.fail nofun
  · rename_i ho
    split
    · exact Kept.fail nofun
    · rename_i name hn
      refine Kept.bind (heval w right s hright) fun w' v hw hv => ?_
      refine Kept.bind (Kept.update fun h hh => ?_) fun w'' _ hw' _ => Kept.pure (I.value_later hw' hv)
      match children, hl, hm, hr with
      | _ :: _ :: _ :: _, rfl, rfl, rfl => exact I.assigned hh (I.tree_later hw ht) (assigned_of_symbol hs ho hn) hv
  · refine Kept.bind (heval w left s hleft) fun w' a hw _ => ?_
    refine Kept.bind (heval w' right s (I.tree_later hw hright)) fun w'' b _ _ => ?_
    split
    · rename_i hr
      exact Kept.pure (I.data (hr ▸ applyOperator_plain : PlainResult (.ok _)))
    · rename_i hr
      exact Kept.fail ((hr ▸ applyOperator_plain : PlainResult (.error _)) _ _)

theorem evalNegative_kept (heval : I.KeptEval eval) (ht : I.tree w (.list .negative children) s) :
    I.Kept w (evalNegative eval (.list .negative children) s) I.value := by
  unfold evalNegative
  refine Kept.bind (Kept.need _ _) fun _ operand _ ho => ?_
  obtain ⟨rfl, ho⟩ := ho
  refine Kept.bind (heval w operand s (I.part ht rfl (List.mem_of_getElem? ho))) fun w' v _ _ => ?_
  cases v with
  | number d => exact Kept.pure (number_value _)
  | _ => exact Kept.fail nofun

theorem bindArguments_kept {caller inner : ScopeId} {f : Function} {bound : List (String × Node)}
    (heval : I.KeptEval eval) (ha : I.activation w f inner)
    (hb : ∀ b ∈ bound, b.1 ∈ f.paramNames ∧ I.tree w b.2 caller) :
    I.Kept w (bindArguments eval caller inner bound) fun w' _ => I.activation w' f inner := by
  induction bound generalizing w with
  | nil => exact Kept.pure ha
  | cons first more ih =>
    obtain ⟨param, argument⟩ := first
    obtain ⟨hf, hm⟩ := List.forall_mem_cons.1 hb
    refine Kept.bind (heval w argument caller hf.2) fun w' v hw hv => ?_
    have hbind : I.Kept w' (bindIn inner param v) fun _ _ => True :=
      Kept.update fun h hh => I.parameter hh (I.activation_later hw ha) hf.1 hv
    refine Kept.bind hbind fun w'' _ hw' _ => ?_
    have hlater := I.trans hw hw'
    exact ih (I.activation_later hlater ha) fun b hb => ⟨(hm b hb).1, I.tree_later hlater (hm b hb).2⟩

theorem call_kept {callee : Value} {arguments : List Node} {line : Option Nat} (heval : I.KeptEval eval)
    (hc : I.value w callee) (ha : ∀ n ∈ arguments, I.tree w n s) :
    I.Kept w (call eval callee arguments s line) I.value := by
  cases callee with
  | function f =>
    rw [call]
    split
    · exact Kept.fail nofun
    · have hscope : I.Kept w (modifyGet (Heap.newScope (some f.scope)) : Evaluation ScopeId)
          fun w' inner => I.activation w' f inner := by
        intro h hh
        obtain ⟨w', hw, hh', hact⟩ := I.called hh hc
        exact ⟨w', hw, hh', hact⟩
      refine Kept.bind hscope fun w' inner hw hact => ?_
      refine Kept.bind (bindArguments_kept heval hact fun b hb => ?_) fun w'' _ _ hact' =>
        heval w'' f.body inner (I.body hact')
      obtain ⟨hparam, harg⟩ := List.of_mem_zip hb
      exact ⟨hparam, I.tree_later hw (ha _ harg)⟩
  | _ => exact Kept.fail nofun

theorem evalCalls_kept {line : Option Nat} {calls : List Node} {v : Value} (heval : I.KeptEval eval)
    (hv : I.value w v) (hc : ∀ c ∈ calls, I.tree w c s) : I.Kept w (evalCalls eval s line v calls) I.value := by
  induction calls generalizing w v with
  | nil => exact Kept.pure hv
  | cons c more ih =>
    obtain ⟨hf, hm⟩ := List.forall_mem_cons.1 hc
    unfold evalCalls
    split
    · rename_i h
      cases h
    · rename_i arguments _ h
      cases h
      refine Kept.bind (call_kept heval hv fun n hn => I.part hf rfl hn) fun w' v' hw hv' => ?_
      exact ih hv' fun c hc => I.tree_later hw (hm c hc)
    · exact Kept.fail nofun

theorem evalStatements_kept {statements : List Node} {v : Value} (heval : I.KeptEval eval) (hv : I.value w v)
    (hs : ∀ n ∈ statements, I.tree w n s) : I.Kept w (evalStatements eval s v statements) I.value := by
  induction statements generalizing w v with
  | nil => exact Kept.pure hv
  | cons n more ih =>
    obtain ⟨hf, hm⟩ := List.forall_mem_cons.1 hs
    rw [evalStatements]
    split
    · exact ih hv hm
    · exact Kept.bind (heval w n s hf) fun w' v' hw hv' => ih hv' fun c hc => I.tree_later hw (hm c hc)

theorem evalConditional_kept (heval : I.KeptEval eval) (ht : I.tree w (.list .conditional children) s) :
    I.Kept w (evalConditional eval (.list .conditional children) s) I.value := by
  have hpart : ∀ w', I.Later w w' → ∀ i m, (Node.list .conditional children).child? i = some m → I.tree w' m s :=
    fun w' hw i m hm => I.tree_later hw (I.part ht rfl (List.mem_of_getElem? hm))
  unfold evalConditional
  refine Kept.bind (Kept.need _ _) fun _ condition _ hc => ?_
  obtain ⟨rfl, hc⟩ := hc
  refine Kept.bind (heval w condition s (hpart w (I.refl w) 0 _ hc)) fun w' c hw _ => ?_
  split
  · refine Kept.bind (Kept.need _ _) fun _ body _ hb => ?_
    obtain ⟨rfl, hb⟩ := hb
    exact heval w' body s (hpart w' hw 1 _ hb)
  · split
    · rename_i other ho
      exact heval w' other s (hpart w' hw 2 _ ho)
    · exact Kept.pure (number_value _)

theorem evalRounds_kept {condition body : Node} {rounds : Nat} {v : Value} (heval : I.KeptEval eval)
    (hc : I.tree w condition s) (hb : I.tree w body s) (hv : I.value w v) :
    I.Kept w (evalRounds eval condition body s rounds v) I.value := by
  induction rounds generalizing w v with
  | zero => exact Kept.endless
  | succ rounds ih =>
    rw [evalRounds]
    refine Kept.bind (heval w condition s hc) fun w' c hw _ => ?_
    split
    · refine Kept.bind (heval w' body s (I.tree_later hw hb)) fun w'' v' hw' hv' => ?_
      have hlater := I.trans hw hw'
      exact ih (I.tree_later hlater hc) (I.tree_later hlater hb) hv'
    · exact Kept.pure (I.value_later hw hv)

theorem evalLoop_kept {rounds : Nat} (heval : I.KeptEval eval) (ht : I.tree w (.list .loop children) s) :
    I.Kept w (evalLoop rounds eval (.list .loop children) s) I.value := by
  unfold evalLoop
  refine Kept.bind (Kept.need _ _) fun _ condition _ hc => ?_
  obtain ⟨rfl, hc⟩ := hc
  refine Kept.bind (Kept.need _ _) fun _ body _ hb => ?_
  obtain ⟨rfl, hb⟩ := hb
  exact evalRounds_kept heval (I.part ht rfl (List.mem_of_getElem? hc)) (I.part ht rfl (List.mem_of_getElem? hb))
    (number_value _)

theorem newFunction_kept {n params body : Node} {name : Option String} (ht : I.tree w n s)
    (hf : n.function? = some (params, body)) : I.Kept w (newFunction name params body s) I.value := by
  intro h hh
  obtain ⟨hv, hh'⟩ : I.value w (.function ⟨h.functionCount, name, params, body, s⟩) ∧ _ := I.made hh ht hf
  exact ⟨w, I.refl w, hh', hv⟩

theorem evalDefinition_kept (ht : I.tree w (.list .definition children) s) :
    I.Kept w (evalDefinition (.list .definition children) s) I.value := by
  unfold evalDefinition
  refine Kept.bind (Kept.need _ _) fun _ t _ hn => ?_
  obtain ⟨rfl, hn⟩ := hn
  refine Kept.bind (Kept.need _ _) fun _ params _ hp => ?_
  obtain ⟨rfl, hp⟩ := hp
  refine Kept.bind (Kept.need _ _) fun _ body _ hb => ?_
  obtain ⟨rfl, hb⟩ := hb
  obtain ⟨name, hname, hn⟩ := Option.bind_eq_some_iff.1 hn
  match children, hname, hp, hb with
  | _ :: _ :: _ :: _, rfl, rfl, rfl =>
    refine Kept.bind (newFunction_kept ht rfl) fun w' v hw hv => ?_
    have hbind : I.Kept w' (bindIn s t.text v) fun _ _ => True :=
      Kept.update fun h hh => I.defined hh (I.tree_later hw ht) hv t hn
    exact Kept.bind hbind fun _ _ _ _ => Kept.pure (I.data rfl)

theorem evalClosure_kept (ht : I.tree w (.list .closure children) s) :
    I.Kept w (evalClosure (.list .closure children) s) I.value := by
  unfold evalClosure
  refine Kept.bind (Kept.need _ _) fun _ params _ hp => ?_
  obtain ⟨rfl, hp⟩ := hp
  refine Kept.bind (Kept.need _ _) fun _ body _ hb => ?_
  obtain ⟨rfl, hb⟩ := hb
  match children, hp, hb with
  | _ :: _ :: _, rfl, rfl => exact newFunction_kept ht rfl

/-- one tree, if its parts keep the invariant -/
theorem evalNode_kept {rounds : Nat} {n : Node} (heval : I.KeptEval eval) (ht : I.tree w n s) :
    I.Kept w (evalNode rounds eval n s) I.value := by
  cases n with
  | leaf kind t => exact evalLeaf_kept ht
  | list kind children =>
    cases kind with
    | binary => exact evalBinary_kept heval ht
    | negative => exact evalNegative_kept heval ht
    | primary =>
      cases children with
      | nil => exact Kept.fail nofun
      | cons operand calls =>
        refine Kept.bind (heval w operand s (I.part ht rfl List.mem_cons_self)) fun w' v hw hv => ?_
        exact evalCalls_kept heval hv fun c hc => I.tree_later hw (I.part ht rfl (List.mem_cons_of_mem _ hc))
    | block => exact evalStatements_kept heval (number_value _) fun n hn => I.part ht rfl hn
    | conditional => exact evalConditional_kept heval ht
    | loop => exact evalLoop_kept heval ht
    | empty => exact Kept.pure (I.data rfl)
    | definition => exact evalDefinition_kept ht
    | closure => exact evalClosure_kept ht
    | plain => exact Kept.fail nofun
    | parameters => exact Kept.fail nofun
    | arguments => exact Kept.fail nofun

end Trees

/-! ## Runs -/

/-- waiting for something that is not in order changes nothing -/
theorem evaluateUntil_kept {awaited : Node → ScopeId → Heap → Bool}
    (ha : ∀ w n s h, I.heap w h → I.tree w n s → awaited n s h = false) (rounds depth : Nat) :
    I.KeptEval (evaluateUntil awaited alarm rounds depth) := by
  induction depth with
  | zero =>
    intro w n s ht h hh
    rw [run_evaluateUntil_zero, ha w n s h hh ht]
    exact ⟨nofun, w, I.refl w, hh⟩
  | succ depth ih =>
    intro w n s ht h hh
    rw [run_evaluateUntil, ha w n s h hh ht]
    exact evalNode_kept ih ht h hh

/-- **Evaluation keeps the invariant**, also when it ends with an error. -/
theorem evaluate_keeps (I : Invariant) {w : I.World} {n : Node} {s : ScopeId} (ht : I.tree w n s) (rounds depth : Nat) :
    I.Kept w (evaluate rounds depth n s) I.value := by
  have h : I.KeptEval (evaluateUntil (fun _ _ _ => false) alarm rounds depth) :=
    evaluateUntil_kept (fun _ _ _ _ _ _ => rfl) rounds depth
  rw [evaluateUntil_never] at h
  exact h w n s ht

/-- **All that evaluation comes to is in order**: trees are in order in their scopes whenever they are entered. -/
theorem enters_inv (I : Invariant) {w : I.World} {n m : Node} {s u : ScopeId} {h k : Heap} {rounds depth : Nat}
    (hh : I.heap w h) (ht : I.tree w n s) (he : Enters rounds depth n s h m u k) :
    ∃ w', I.heap w' k ∧ I.tree w' m u := by
  classical
  -- wait for what is not in order: if it were entered, the alarm would be raised
  by_contra hno
  let awaited : Node → ScopeId → Heap → Bool := fun m u k => decide ¬ ∃ w', I.heap w' k ∧ I.tree w' m u
  obtain ⟨k', hk⟩ := he awaited alarm (decide_eq_true hno)
  have hkept : I.KeptEval (evaluateUntil awaited alarm rounds depth) :=
    evaluateUntil_kept (fun w' m u k hk hm => decide_eq_false (not_not.2 ⟨w', hk, hm⟩)) rounds depth
  have hrun := hkept w n s ht h hh
  rw [hk] at hrun
  exact hrun.1 rfl

end Invariant

end Stone
