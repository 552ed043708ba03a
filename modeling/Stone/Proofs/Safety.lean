/-
Safety of evaluation. Trees of the language never meet the errors that are there for malformed trees. The functions in
the heap were made from trees of the language, so their bodies are safe too whenever they are called.

- `evaluate_safe`: evaluation of a tree that fits keeps the heap sound and fails, if it fails, for a reason that lies in
  the program and not in the shape of its trees.
- `evalSource_safe`: so does running any source text, whatever it is.
- `parsed_wellFormed_and_safe`: what is parsed is well formed, and sessions never show the errors for malformed trees.
-/
import Stone.Proofs.WellFormed

namespace Stone

open Evaluation

/-- the errors for malformed trees -/
def EvalError.isMalformed : EvalError → Bool
  | badOperator _ _ => true
  | cannotEvaluate _ _ => true
  | _ => false

/-- does evaluation expect trees of this role -/
def Role.isRun : Role → Bool
  | .value _ => true
  | .block => true
  | .statement => true
  | .program => true
  | _ => false

section Safety

variable {l : Level}

/-- trees of the language with any tokens, in a role in which they are evaluated -/
def Runs (l : Level) (n : Node) : Prop := ∃ r : Role, r.isRun = true ∧ Fits l (fun _ => True) r n

/-- functions of the language -/
structure Function.Sound (l : Level) (f : Function) : Prop where
  params : Fits l (fun _ => True) .parameters f.params
  body : Fits l (fun _ => True) .block f.body

def Value.Sound (l : Level) : Value → Prop
  | .function f => f.Sound l
  | _ => True

def Scope.Sound (l : Level) (scope : Scope) : Prop := ∀ b ∈ scope.bindings, b.2.Sound l

def Heap.Sound (l : Level) (h : Heap) : Prop := ∀ scope ∈ h.scopes, scope.Sound l

/-! ## Heaps -/

theorem putIn_sound {name : String} {v : Value} {bindings : List (String × Value)}
    (hb : ∀ b ∈ bindings, b.2.Sound l) (hv : v.Sound l) : ∀ b ∈ Scope.putIn name v bindings, b.2.Sound l := by
  induction bindings with
  | nil =>
    intro b hm
    obtain rfl := List.mem_singleton.1 hm
    exact hv
  | cons first more ih =>
    obtain ⟨hf, hm⟩ := List.forall_mem_cons.1 hb
    obtain ⟨m, w⟩ := first
    rw [Scope.putIn]
    split
    · exact List.forall_mem_cons.2 ⟨hv, hm⟩
    · exact List.forall_mem_cons.2 ⟨hf, ih hm⟩

theorem Heap.Sound.putNew {h : Heap} {s : ScopeId} {name : String} {v : Value} (hh : h.Sound l) (hv : v.Sound l) :
    (h.putNew s name v).Sound l := by
  intro scope hs
  obtain ⟨i, hi, hs⟩ := Array.mem_iff_getElem.1 hs
  have hi' : i < h.scopes.size := by simpa [Heap.putNew] using hi
  have hold := hh _ (Array.getElem_mem hi')
  rw [← hs]
  simp only [Heap.putNew, Array.getElem_modify]
  split
  · exact putIn_sound hold hv
  · exact hold

theorem Heap.Sound.newScope {h : Heap} {outer : Option ScopeId} (hh : h.Sound l) : (h.newScope outer).2.Sound l := by
  intro scope hs
  rcases Array.mem_push.1 hs with hs | rfl
  · exact hh scope hs
  · intro b hb
    cases hb

theorem Heap.Sound.get {h : Heap} {s : ScopeId} {name : String} {v : Value} (hh : h.Sound l)
    (hg : h.get? s name = some v) : v.Sound l := by
  rw [get?_eq] at hg
  obtain ⟨u, -, hu⟩ := Option.bind_eq_some_iff.1 hg
  rw [Heap.scope] at hu
  cases hs : h.scopes[u]? with
  | none => rw [hs] at hu; cases hu
  | some scope =>
    rw [hs] at hu
    obtain ⟨before, after, hb, -⟩ := List.lookup_eq_some_iff.1 hu
    have hmem : (name, v) ∈ scope.bindings := by
      show (name, v) ∈ ((some scope).getD {}).bindings
      rw [hb]
      exact List.mem_append_right _ List.mem_cons_self
    exact hh scope (Array.mem_of_getElem? hs) _ hmem

/-! ## Actions -/

/-- from a sound heap the action gives a result with the property `P` or fails for a good reason, and the heap is sound
in the end -/
def Safe (l : Level) {α : Type} (p : Evaluation α) (P : α → Prop) : Prop :=
  ∀ h : Heap, h.Sound l →
    match p.run h with
    | .ok a h' => P a ∧ h'.Sound l
    | .error (.raised e) h' => e.isMalformed = false ∧ h'.Sound l
    | .error .endless h' => h'.Sound l

section Rules

variable {α β : Type} {p : Evaluation α} {f : α → Evaluation β} {P : α → Prop} {R : β → Prop}

theorem Safe.pure {a : α} (h : P a) : Safe l (Pure.pure a : Evaluation α) P := fun _ hh => ⟨h, hh⟩

theorem Safe.fail {e : EvalError} (he : e.isMalformed = false) : Safe l (Evaluation.fail e : Evaluation α) P :=
  fun _ hh => ⟨he, hh⟩

theorem Safe.endless : Safe l (throw .endless : Evaluation α) P := fun _ hh => hh

theorem Safe.bind (hp : Safe l p P) (hf : ∀ a, P a → Safe l (f a) R) : Safe l (p >>= f) R := by
  intro h hh
  have h1 := hp h hh
  rw [EStateM.run_bind]
  rcases hr : p.run h with ⟨a, h'⟩ | ⟨_ | _, h'⟩
  · rw [hr] at h1
    exact hf a h1.1 h' h1.2
  · rw [hr] at h1
    exact h1
  · rw [hr] at h1
    exact h1

theorem Safe.update {k : Heap → Heap} (hk : ∀ h, h.Sound l → (k h).Sound l) :
    Safe l (modify k : Evaluation Unit) fun _ => True := fun h hh => ⟨trivial, hk h hh⟩

end Rules

theorem need_some {α : Type} (n : Node) (a : α) : need n (some a) = pure a := rfl

theorem bindIn_safe {s : ScopeId} {name : String} {v : Value} (hv : v.Sound l) :
    Safe l (bindIn s name v) fun _ => True :=
  Safe.update fun _ hh => hh.putNew hv

theorem newFunction_safe {name : Option String} {params body : Node} {s : ScopeId}
    (hp : Fits l (fun _ => True) .parameters params) (hb : Fits l (fun _ => True) .block body) :
    Safe l (newFunction name params body s) (Value.Sound l) :=
  fun _ hh => ⟨⟨hp, hb⟩, hh⟩

/-! ## Operators -/

/-- the operators of the grammar have a meaning -/
theorem ofSymbol_of_get {op : String} {p : Precedence} (h : OperatorTable.standard.get? op = some p) :
    ∃ o, Operator.ofSymbol? op = some o := by
  have hall : ∀ e ∈ OperatorTable.standard.entries, (Operator.ofSymbol? e.1).isSome = true := by decide
  obtain ⟨before, after, he, -⟩ := List.lookup_eq_some_iff.1 h
  have hmem : (op, p) ∈ OperatorTable.standard.entries := by
    rw [he]
    exact List.mem_append_right _ List.mem_cons_self
  exact Option.isSome_iff_exists.1 (hall _ hmem)

/-- a sound value or an error with a good reason -/
def SoundResult (l : Level) : Except EvalError Value → Prop
  | .ok v => v.Sound l
  | .error e => e.isMalformed = false

theorem inRange_sound {line : Option Nat} {o : Option Decimal} : SoundResult l (inRange line o) := by
  cases o with
  | none => exact rfl
  | some d => exact trivial

theorem applyToNumbers_sound {op : Operator} {a b : Decimal} {line : Option Nat} :
    SoundResult l (applyToNumbers op a b line) := by
  cases op with
  | add => exact inRange_sound
  | subtract => exact inRange_sound
  | multiply => exact inRange_sound
  | divide =>
    rw [applyToNumbers]
    cases b.isZero with
    | true => exact rfl
    | false => exact inRange_sound
  | modulo =>
    rw [applyToNumbers]
    cases b.isZero with
    | true => exact rfl
    | false => exact inRange_sound
  | assign => exact rfl
  | _ => exact trivial

theorem applyOperator_sound {op : Operator} {a b : Value} {line : Option Nat} :
    SoundResult l (applyOperator op a b line) := by
  unfold applyOperator
  split
  · exact trivial
  · exact applyToNumbers_sound
  · exact trivial
  · exact rfl

/-! ## Trees -/

section Trees

variable {eval : Node → ScopeId → Evaluation Value} {s : ScopeId} {n : Node}

/-- the parts that evaluation goes down to are safe -/
def SafeEval (l : Level) (eval : Node → ScopeId → Evaluation Value) : Prop :=
  ∀ n s, Runs l n → Safe l (eval n s) (Value.Sound l)

theorem runs_value {b : Bool} (h : Fits l (fun _ => True) (.value b) n) : Runs l n := ⟨_, rfl, h⟩

theorem runs_block (h : Fits l (fun _ => True) .block n) : Runs l n := ⟨_, rfl, h⟩

theorem runs_statement (h : Fits l (fun _ => True) .statement n) : Runs l n := ⟨_, rfl, h⟩

theorem evalName_safe {t : Token} : Safe l (evalLeaf .name t s) (Value.Sound l) := by
  intro h hh
  rw [run_evalLeaf_name]
  cases hg : h.get? s t.text with
  | none => exact ⟨rfl, hh⟩
  | some v => exact ⟨hh.get hg, hh⟩

theorem evalBinary_safe {left right : Node} {line : Nat} {op : String} {p : Precedence} (heval : SafeEval l eval)
    (ha : Runs l left) (hb : Runs l right) (hp : OperatorTable.standard.get? op = some p) :
    Safe l (evalBinary eval (.list .binary [left, .leaf .mark ⟨line, .identifier op⟩, right]) s) (Value.Sound l) := by
  obtain ⟨o, ho⟩ := ofSymbol_of_get hp
  have htext : (⟨line, .identifier op⟩ : Token).text = op := rfl
  unfold evalBinary
  simp only [Node.child?, Node.children, List.getElem?_cons_zero, List.getElem?_cons_succ, Option.bind_some,
    Node.token?, need_some, lift_self, pure_bind, htext, ho]
  split
  · rename_i h
    cases h
  · cases left.name? with
    | none => exact Safe.fail rfl
    | some name =>
      refine Safe.bind (heval right s hb) fun v hv => ?_
      exact Safe.bind (Safe.update fun _ hh => hh.putNew hv) fun _ _ => Safe.pure hv
  · refine Safe.bind (heval left s ha) fun a _ => Safe.bind (heval right s hb) fun b _ => ?_
    split
    · rename_i hr
      exact Safe.pure (hr ▸ applyOperator_sound : SoundResult l (.ok _))
    · rename_i hr
      exact Safe.fail (hr ▸ applyOperator_sound : SoundResult l (.error _))

theorem evalNegative_safe {operand : Node} (heval : SafeEval l eval) (ho : Runs l operand) :
    Safe l (evalNegative eval (.list .negative [operand]) s) (Value.Sound l) := by
  unfold evalNegative
  simp only [Node.child?, Node.children, List.getElem?_cons_zero, need_some, lift_self, pure_bind]
  refine Safe.bind (heval operand s ho) fun v _ => ?_
  cases v with
  | number d => exact Safe.pure trivial
  | _ => exact Safe.fail rfl

theorem bindArguments_safe {caller inner : ScopeId} {bound : List (String × Node)} (heval : SafeEval l eval)
    (hb : ∀ b ∈ bound, Runs l b.2) : Safe l (bindArguments eval caller inner bound) fun _ => True := by
  induction bound with
  | nil => exact Safe.pure trivial
  | cons first more ih =>
    obtain ⟨param, argument⟩ := first
    obtain ⟨hf, hm⟩ := List.forall_mem_cons.1 hb
    refine Safe.bind (heval argument caller hf) fun v hv => ?_
    exact Safe.bind (bindIn_safe hv) fun _ _ => ih hm

theorem call_safe {callee : Value} {arguments : List Node} {caller : ScopeId} {line : Option Nat}
    (heval : SafeEval l eval) (hc : callee.Sound l) (ha : ∀ n ∈ arguments, Runs l n) :
    Safe l (call eval callee arguments caller line) (Value.Sound l) := by
  cases callee with
  | function f =>
    rw [call]
    split
    · exact Safe.fail rfl
    · have hscope : Safe l (modifyGet (Heap.newScope (some f.scope)) : Evaluation ScopeId) fun _ => True :=
        fun h hh => ⟨trivial, hh.newScope⟩
      refine Safe.bind hscope fun inner _ => ?_
      refine Safe.bind (bindArguments_safe heval fun b hb => ?_) fun _ _ => heval f.body inner (runs_block hc.body)
      exact ha b.2 (List.of_mem_zip hb).2
  | _ => exact Safe.fail rfl

theorem evalCalls_safe {line : Option Nat} {calls : List Node} {v : Value} (heval : SafeEval l eval)
    (hv : v.Sound l) (hc : ∀ c ∈ calls, Fits l (fun _ => True) .arguments c) :
    Safe l (evalCalls eval s line v calls) (Value.Sound l) := by
  induction calls generalizing v with
  | nil => exact Safe.pure hv
  | cons c more ih =>
    obtain ⟨hf, hm⟩ := List.forall_mem_cons.1 hc
    cases hf with
    | arguments ha =>
      rw [evalCalls]
      exact Safe.bind (call_safe heval hv fun n hn => runs_value (ha n hn)) fun w hw => ih hw hm

theorem evalStatements_safe {statements : List Node} {v : Value} (heval : SafeEval l eval) (hv : v.Sound l)
    (hs : ∀ n ∈ statements, Runs l n) : Safe l (evalStatements eval s v statements) (Value.Sound l) := by
  induction statements generalizing v with
  | nil => exact Safe.pure hv
  | cons n more ih =>
    obtain ⟨hf, hm⟩ := List.forall_mem_cons.1 hs
    rw [evalStatements]
    split
    · exact ih hv hm
    · exact Safe.bind (heval n s hf) fun w hw => ih hw hm

theorem evalRounds_safe {condition body : Node} {rounds : Nat} {v : Value} (heval : SafeEval l eval)
    (hc : Runs l condition) (hb : Runs l body) (hv : v.Sound l) :
    Safe l (evalRounds eval condition body s rounds v) (Value.Sound l) := by
  induction rounds generalizing v with
  | zero => exact Safe.endless
  | succ rounds ih =>
    rw [evalRounds]
    refine Safe.bind (heval condition s hc) fun c _ => ?_
    cases c.isTruthy with
    | true => exact Safe.bind (heval body s hb) fun w hw => ih hw
    | false => exact Safe.pure hv

/-- the condition, then one of the blocks or nothing -/
theorem evalConditional_safe {condition body : Node} {others : List Node} (heval : SafeEval l eval)
    (hc : Runs l condition) (hb : Runs l body) (ho : ∀ other ∈ others, Runs l other) :
    Safe l (evalConditional eval (.list .conditional (condition :: body :: others)) s) (Value.Sound l) := by
  unfold evalConditional
  simp only [Node.child?, Node.children, List.getElem?_cons_zero, List.getElem?_cons_succ, need_some, lift_self, pure_bind]
  refine Safe.bind (heval condition s hc) fun c _ => ?_
  split
  · exact heval body s hb
  · split
    · rename_i other hother
      exact heval other s (ho other (List.mem_of_getElem? hother))
    · exact Safe.pure trivial

theorem evalLoop_safe {condition body : Node} {rounds : Nat} (heval : SafeEval l eval) (hc : Runs l condition)
    (hb : Runs l body) : Safe l (evalLoop rounds eval (.list .loop [condition, body]) s) (Value.Sound l) := by
  unfold evalLoop
  simp only [Node.child?, Node.children, List.getElem?_cons_zero, List.getElem?_cons_succ, need_some, lift_self, pure_bind]
  exact evalRounds_safe heval hc hb trivial

theorem evalDefinition_safe {t : Token} {params body : Node} (hp : Fits l (fun _ => True) .parameters params)
    (hb : Fits l (fun _ => True) .block body) :
    Safe l (evalDefinition (.list .definition [.leaf .mark t, params, body]) s) (Value.Sound l) := by
  unfold evalDefinition
  simp only [Node.child?, Node.children, List.getElem?_cons_zero, List.getElem?_cons_succ, Option.bind_some,
    Node.token?, need_some, pure_bind]
  exact Safe.bind (newFunction_safe hp hb) fun v hv => Safe.bind (bindIn_safe hv) fun _ _ => Safe.pure trivial

/-- one tree, if its parts are safe -/
theorem evalNode_safe {rounds : Nat} (heval : SafeEval l eval) (h : Runs l n) :
    Safe l (evalNode rounds eval n s) (Value.Sound l) := by
  obtain ⟨r, hr, hn⟩ := h
  induction hn with
  | number _ => exact Safe.pure trivial
  | string _ => exact Safe.pure trivial
  | name _ _ _ => exact evalName_safe
  | negative ho => exact evalNegative_safe heval (runs_value ho)
  | binary ha hb _ hp => exact evalBinary_safe heval (runs_value ha) (runs_value hb) hp
  | primary _ ho _ hcs =>
    exact Safe.bind (heval _ s (runs_value ho)) fun v hv => evalCalls_safe heval hv hcs
  | closure _ hp hb => exact newFunction_safe hp hb
  | block hs => exact evalStatements_safe heval trivial fun n hn => runs_statement (hs n hn)
  | simple _ ih => exact ih rfl
  | conditional hc hb => exact evalConditional_safe heval (runs_value hc) (runs_block hb) nofun
  | otherwise hc hb ho =>
    refine evalConditional_safe heval (runs_value hc) (runs_block hb) fun other hm => ?_
    obtain rfl := List.mem_singleton.1 hm
    exact runs_block ho
  | loop hc hb => exact evalLoop_safe heval (runs_value hc) (runs_block hb)
  | definition _ _ _ hp hb => exact evalDefinition_safe hp hb
  | statement _ ih => exact ih rfl
  | nothing => exact Safe.pure trivial
  | arguments _ => cases hr
  | parameter _ _ => cases hr
  | parameters _ => cases hr

end Trees

/-- **Evaluation is safe** on all trees of the language. -/
theorem evaluate_safe (l : Level) (rounds depth : Nat) : SafeEval l (evaluate rounds depth) := by
  induction depth with
  | zero => exact fun n s _ => Safe.fail rfl
  | succ depth ih => exact fun n s hn => evalNode_safe ih hn

end Safety

/-! ## Sessions -/

/-- a result that is no error for a malformed tree -/
def WellMeant {α : Type} : Except (Stop Fault) α → Prop
  | .error (.raised (.eval e)) => e.isMalformed = false
  | _ => True

namespace Session

/-- the heap of the session is sound for its level -/
def Sound (s : Session) : Prop := s.heap.Sound s.level

theorem new_sound (l : Level) : (new l).Sound := Heap.Sound.newScope fun _ hs => by simp [Heap.empty] at hs

theorem evalNode_safe {s : Session} {n : Node} (hs : s.Sound) (hn : Runs s.level n) :
    WellMeant (s.evalNode n).1 ∧ (s.evalNode n).2.Sound ∧ (s.evalNode n).2.level = s.level := by
  have h := evaluate_safe s.level maxRounds maxEvaluation n s.globals hn s.heap hs
  unfold evalNode
  rcases hr : (evaluate maxRounds maxEvaluation n s.globals).run s.heap with ⟨v, heap⟩ | ⟨_ | _, heap⟩
  · rw [hr] at h
    exact ⟨trivial, h.2, rfl⟩
  · rw [hr] at h
    exact ⟨h.1, h.2, rfl⟩
  · rw [hr] at h
    exact ⟨trivial, h, rfl⟩

theorem runStream_safe {s : Session} {l : Level} (hs : s.Sound) (hl : s.level = l) (done : List Value) (budget : Nat)
    (stream : TokenStream) :
    WellMeant (runStream (.ofLevel l) s done budget stream).1 ∧
      (runStream (.ofLevel l) s done budget stream).2.Sound ∧
      (runStream (.ofLevel l) s done budget stream).2.level = l := by
  have hparse : ∀ e : Stop ParseError, WellMeant (.error (e.map .parse) : Except (Stop Fault) (List Value)) := by
    intro e
    cases e <;> trivial
  induction budget generalizing s done stream with
  | zero => exact ⟨trivial, hs, hl⟩
  | succ budget ih =>
    rw [runStream]
    cases h1 : Language.atEnd.run stream with
    | error e s₁ => exact ⟨hparse e, hs, hl⟩
    | ok b s₁ =>
      cases b with
      | true => exact ⟨trivial, hs, hl⟩
      | false =>
        simp only
        cases h2 : (Language.ofLevel l).parseStatement.run s₁ with
        | error e s₂ => exact ⟨hparse e, hs, hl⟩
        | ok n s₂ =>
          simp only
          split
          · exact ih hs hl done s₂
          · have hfits := parseStatement_fits (Q := fun _ => True) (fun _ _ => trivial) h2
            obtain ⟨hw, hsound, hlevel⟩ := evalNode_safe hs ⟨.program, rfl, hl ▸ hfits⟩
            rcases hr : s.evalNode n with ⟨e | v, s'⟩
            · rw [hr] at hw hsound hlevel
              cases e with
              | endless => exact ⟨trivial, hsound, hlevel.trans hl⟩
              | raised e => cases e <;> exact ⟨hw, hsound, hlevel.trans hl⟩
            · rw [hr] at hsound hlevel
              exact ih hsound (hlevel.trans hl) (v :: done) s₂

/-- **Running any source text is safe**, and so is going on after it. -/
theorem evalSource_safe {s : Session} (hs : s.Sound) (source : String) :
    WellMeant (s.evalSource source).1 ∧ (s.evalSource source).2.Sound := by
  obtain ⟨hw, hsound, -⟩ := runStream_safe hs rfl [] ((TokenStream.ofSource source).size + 1)
    (TokenStream.ofSource source)
  exact ⟨hw, hsound⟩

/-- the results of source texts that run one after the other in the same session -/
def evalSources (s : Session) : List String → List (Except (Stop Fault) (List Value))
  | [] => []
  | source :: more => (s.evalSource source).1 :: (s.evalSource source).2.evalSources more

theorem evalSources_safe {s : Session} (hs : s.Sound) (sources : List String) :
    ∀ r ∈ s.evalSources sources, WellMeant r := by
  induction sources generalizing s with
  | nil => intro r hr; cases hr
  | cons source more ih =>
    obtain ⟨hw, hsound⟩ := evalSource_safe hs source
    intro r hr
    rcases List.mem_cons.1 hr with rfl | hr
    · exact hw
    · exact ih hsound r hr

end Session

/-- **Parsed trees are well formed, and sessions are safe.** Whatever the level and the stream, each part of a parsed
statement has the children that its kind asks for, and only a whole statement is empty. So whatever source texts run in
a new session, none of them gives an error for a malformed tree. -/
theorem parsed_wellFormed_and_safe (l : Level) :
    (∀ (s s' : TokenStream) (n m : Node), (Language.ofLevel l).parseStatement.run s = .ok n s' → m.Within n →
      m.wellFormed = true ∧ (m.is .empty = true → m = n)) ∧
    ∀ (sources : List String) (e : EvalError),
      .error (.raised (.eval e)) ∈ (Session.new l).evalSources sources → e.isMalformed = false := by
  refine ⟨fun s s' n m h hm => parseStatement_tidy h hm, fun sources e he => ?_⟩
  exact Session.evalSources_safe (Session.new_sound l) sources _ he

/-- a statement that is parsed and fails: its tree is well formed, and the error is that of an undefined name -/
theorem negated_name_wellFormed_and_safe :
    (Node.list .negative [.leaf .name ⟨1, .identifier "x"⟩]).wellFormed = true ∧
      .error (.raised (.eval (.undefinedName "x" (some 1)))) ∈ (Session.new .closures).evalSources ["-x"] ∧
      (EvalError.undefinedName "x" (some 1)).isMalformed = false := by
  have hparse : (Language.ofLevel .closures).parseStatement.run
      (TokenStream.ofTokens [⟨1, .identifier "-"⟩, ⟨1, .identifier "x"⟩, ⟨1, .lineEnd⟩]) =
      .ok (.list .negative [.leaf .name ⟨1, .identifier "x"⟩]) (TokenStream.ofTokens []) := by rfl
  have hrun : (Session.new .closures).evalSources ["-x"] =
      [.error (.raised (.eval (.undefinedName "x" (some 1))))] := by cbv
  have hmem : .error (.raised (.eval (.undefinedName "x" (some 1)))) ∈ (Session.new .closures).evalSources ["-x"] := by
    rw [hrun]
    exact List.mem_singleton_self _
  exact ⟨((parsed_wellFormed_and_safe .closures).1 _ _ _ _ hparse .here).1, hmem,
    (parsed_wellFormed_and_safe .closures).2 _ _ hmem⟩

end Stone
