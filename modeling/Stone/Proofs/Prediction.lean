/-
The check before the run, where a program has only one way to go. Without conditionals, loops and functions every part of
a statement is evaluated once, in the order in which the walk looks at it. So as long as nothing goes wrong the walk has
found the names that the run has bound, and the first name that the run misses is the first one that the walk leaves
open. Other errors end the run early and say nothing about names.

- `evaluate_predicts`: walking a tree tells how its evaluation ends, as far as names go.
- `check_predicts_run`: so the check of a program tells how its run ends.
-/
import Stone.Command
import Stone.Proofs.Binders
import Stone.Proofs.Safety

namespace Stone

open Evaluation

/-! ## Walking a tree -/

namespace Symbols

variable {σ : Symbols} {x y : String}

theorem isBound_define : (σ.define y).isBound x = (x == y || σ.isBound x) := by
  rw [Bool.eq_iff_iff, isBound, isBound, List.contains_iff_mem, mem_bound_define]
  simp

theorem free_define (σ : Symbols) (x : String) : (σ.define x).free = σ.free := by
  rw [define]
  split <;> rfl

theorem deferred_define (σ : Symbols) (x : String) : (σ.define x).deferred = σ.deferred := by
  rw [define]
  split <;> rfl

theorem free_reference (σ : Symbols) (x : String) (line : Option Nat) : σ.free <+: (σ.reference x line).free := by
  rw [reference]
  split
  · exact List.prefix_rfl
  · exact List.prefix_append _ _

theorem free_lookupAll_of {ns : List Node} (h : ∀ n ∈ ns, ∀ σ : Symbols, σ.free <+: (lookup n σ).free) (σ : Symbols) :
    σ.free <+: (lookupAll ns σ).free := by
  induction ns generalizing σ with
  | nil => rw [lookupAll]
  | cons n more ih =>
    obtain ⟨hn, hm⟩ := List.forall_mem_cons.1 h
    rw [lookupAll]
    exact (hn σ).trans (ih hm _)

/-- **Open reads stay open**: a walk puts others after them. -/
theorem free_lookup {n : Node} (hn : n.Tidy) (σ : Symbols) : σ.free <+: (lookup n σ).free := by
  induction n using Node.induct generalizing σ with
  | leaf kind t =>
    cases kind with
    | name =>
      rw [lookup]
      exact free_reference σ _ _
    | _ =>
      rw [lookup]
      simp
  | list kind children ih =>
    have hwell := (hn _ .here).1
    have hch : ∀ n ∈ children, ∀ σ : Symbols, σ.free <+: (lookup n σ).free := fun n hm σ => ih n hm (hn.child hm) σ
    have hall := free_lookupAll_of hch σ
    cases kind with
    | binary =>
      obtain ⟨target, op, value, rfl⟩ := Node.wellFormed_binary hwell
      rw [lookup]
      cases ha : assigned? target (.leaf .mark op) with
      | some name =>
        rw [free_define]
        exact hch value (by simp) σ
      | none => simpa only [lookupAll] using hall
    | definition =>
      obtain ⟨name, params, body, rfl⟩ := Node.wellFormed_definition hwell
      rw [lookup, defer, defineLeaf, Node.token?, free_define]
    | closure =>
      obtain ⟨params, body, rfl⟩ := Node.wellFormed_closure hwell
      rw [lookup, defer]
    | _ =>
      rw [lookup]
      · exact hall
      all_goals simp

theorem free_lookupAll {ns : List Node} (hns : ∀ n ∈ ns, n.Tidy) (σ : Symbols) : σ.free <+: (lookupAll ns σ).free :=
  free_lookupAll_of (fun n hn σ => free_lookup (hns n hn) σ) σ

/-! What the walk does with each kind of tree that has values and no functions. -/

theorem lookup_data {kind : LeafKind} (hk : kind ≠ .name) (t : Token) : lookup (.leaf kind t) σ = σ := by
  rw [lookup]
  exact hk

theorem lookup_negative (n : Node) : lookup (.list .negative [n]) σ = lookup n σ := by
  rw [lookup, lookupAll, lookupAll]
  all_goals simp

theorem lookup_primary (operand : Node) (calls : List Node) :
    lookup (.list .primary (operand :: calls)) σ = lookupAll calls (lookup operand σ) := by
  rw [lookup, lookupAll]
  all_goals simp

theorem lookup_assignment {target mark value : Node} (h : assigned? target mark = some x) :
    lookup (.list .binary [target, mark, value]) σ = (lookup value σ).define x := by
  rw [lookup, h]

theorem lookup_operator {a b : Node} {op : Token} (h : assigned? a (.leaf .mark op) = none) :
    lookup (.list .binary [a, .leaf .mark op, b]) σ = lookup b (lookup a σ) := by
  have hmark : lookup (.leaf .mark op) (lookup a σ) = lookup a σ := lookup_data (by decide) op
  rw [lookup, h]
  simp only [lookupAll]
  rw [hmark]

end Symbols

/-! ## Outermost scopes -/

namespace Heap

variable {h : Heap} {g : ScopeId}

theorem locate?_outermost (hg : h.outer? g = none) (name : String) :
    h.locate? g name = if (h.scope g).binds name then some g else none := by
  rw [locate?_step, hg, Option.bind_none]

theorem get?_outermost (hg : h.outer? g = none) (name : String) : h.get? g name = (h.scope g).get? name := by
  rw [get?_step, hg, Option.bind_none, Option.or_none]

theorem put_outermost (hg : h.outer? g = none) (name : String) (v : Value) :
    h.put g name v = h.putNew g name v := by
  rw [put, locate?_outermost hg]
  split <;> rfl

end Heap

/-! ## Predictions -/

/-- the walk has found the names that the run has bound in the scope, and has left no read open; no function is bound -/
structure Tracks (σ : Symbols) (g : ScopeId) (h : Heap) : Prop where
  size : g < h.scopes.size
  outermost : h.outer? g = none
  bound : ∀ x, σ.isBound x = (h.scope g).binds x
  data : ∀ {x v}, (h.scope g).get? x = some v → v.function? = none
  free : σ.free = []
  deferred : σ.deferred = []

/-- an assignment binds the name that the walk binds -/
theorem Tracks.assign {σ : Symbols} {g : ScopeId} {h : Heap} {name : String} {v : Value} (ht : Tracks σ g h)
    (hv : v.function? = none) : Tracks (σ.define name) g (h.put g name v) := by
  have hscope : (h.putNew g name v).scope g = (h.scope g).put name v := Heap.scope_putNew_self ht.size
  rw [Heap.put_outermost ht.outermost]
  constructor
  · rw [Heap.size_putNew]
    exact ht.size
  · rw [Heap.outer?_putNew]
    exact ht.outermost
  · intro x
    rw [hscope, Scope.binds, Scope.get?_put, Symbols.isBound_define, ht.bound]
    by_cases hx : x = name <;> simp [hx, Scope.binds]
  · intro x w hw
    rw [hscope, Scope.get?_put] at hw
    by_cases hx : x = name
    · rw [if_pos hx] at hw
      cases hw
      exact hv
    · rw [if_neg hx] at hw
      exact ht.data hw
  · rw [Symbols.free_define]
    exact ht.free
  · rw [Symbols.deferred_define]
    exact ht.deferred

/-- the read that failed -/
def EvalError.missing? : EvalError → Option Reference
  | undefinedName name line => some ⟨name, line⟩
  | _ => none

/-- if a read has failed, it is the first one that the walk leaves open -/
def Symbols.Blames (σ : Symbols) (e : EvalError) : Prop := ∀ r, e.missing? = some r → σ.free.head? = some r

/-- **The walk predicts the action**: if they agreed before, they agree after a result, and the result has the property
`P`; and if the action fails for a name the walk blames it. -/
def Predicts (g : ScopeId) (walk : Symbols → Symbols) {α : Type} (p : Evaluation α) (P : α → Prop) : Prop :=
  ∀ σ h, Tracks σ g h →
    match p.run h with
    | .ok a k => Tracks (walk σ) g k ∧ P a
    | .error (.raised e) _ => (walk σ).Blames e
    | .error .endless _ => True

theorem Symbols.Blames.mono {σ τ : Symbols} {e : EvalError} (h : σ.Blames e) (hfree : σ.free <+: τ.free) :
    τ.Blames e := by
  intro r hr
  obtain ⟨more, hmore⟩ := hfree
  rw [← hmore, List.head?_append, h r hr]
  rfl

namespace Predicts

variable {α β : Type} {g : ScopeId} {walk walk' : Symbols → Symbols} {p : Evaluation α} {f : α → Evaluation β}
  {P : α → Prop} {Q : β → Prop}

theorem pure {a : α} (h : P a) : Predicts g id (Pure.pure a : Evaluation α) P := fun _ _ ht => ⟨ht, h⟩

theorem fail {e : EvalError} (he : e.missing? = none) : Predicts g walk (Evaluation.fail e : Evaluation α) P := by
  intro σ h _ r hr
  rw [he] at hr
  cases hr

theorem congr (hp : Predicts g walk p P) (h : ∀ σ, walk' σ = walk σ) : Predicts g walk' p P := by
  obtain rfl : walk' = walk := funext h
  exact hp

/-- one action after the other, one walk after the other -/
theorem bind (hp : Predicts g walk p P) (hf : ∀ a, P a → Predicts g walk' (f a) Q)
    (hfree : ∀ σ, σ.free <+: (walk' σ).free) : Predicts g (fun σ => walk' (walk σ)) (p >>= f) Q := by
  intro σ h ht
  have hfirst := hp σ h ht
  rw [EStateM.run_bind]
  cases hr : p.run h with
  | error e k =>
    rw [hr] at hfirst
    cases e with
    | endless => trivial
    | raised e => exact hfirst.mono (hfree _)
  | ok a k =>
    rw [hr] at hfirst
    exact hf a hfirst.2 _ k hfirst.1

end Predicts

/-- no tree of a kind that is evaluated more than once, not at all, or later -/
def Node.Straight (n : Node) : Prop := n.Lacks [.conditional, .loop, .definition, .closure]

section Trees

variable {l : Level} {Q : Token → Prop} {g : ScopeId} {eval : Node → ScopeId → Evaluation Value}

theorem evalName_predicts (t : Token) :
    Predicts g (Symbols.lookup (.leaf .name t)) (evalLeaf .name t g) (·.function? = none) := by
  intro σ h ht
  have hbound := ht.bound t.text
  rw [run_evalLeaf_name, Heap.get?_outermost ht.outermost, Symbols.lookup, Symbols.reference, hbound, Scope.binds]
  cases hv : (h.scope g).get? t.text with
  | some v => exact ⟨ht, ht.data hv⟩
  | none =>
    intro r hr
    cases hr
    show (σ.free ++ _).head? = some _
    rw [ht.free]
    rfl

theorem assign_predicts {name : String} {v : Value} (hv : v.function? = none) :
    Predicts g (·.define name) (do modify fun h => h.put g name v; return v : Evaluation Value)
      (·.function? = none) := fun _ _ ht => ⟨ht.assign hv, hv⟩

section Operators

variable {op : Operator} {a b v : Value} {line : Option Nat} {e : EvalError}

theorem applyOperator_data (h : applyOperator op a b line = .ok v) : v.function? = none :=
  (h ▸ Invariant.applyOperator_plain : Invariant.PlainResult (.ok v))

/-- operators read no names -/
theorem applyOperator_reads_none (h : applyOperator op a b line = .error e) : e.missing? = none := by
  have hplain : Invariant.PlainResult (.error e) := h ▸ Invariant.applyOperator_plain
  cases e with
  | undefinedName name line => exact absurd rfl (hplain name line)
  | _ => rfl

end Operators

theorem evalBinary_predicts {left right : Node} {line : Nat} {op : String} {p : Precedence}
    (hleft : Predicts g (Symbols.lookup left) (eval left g) (·.function? = none))
    (hright : Predicts g (Symbols.lookup right) (eval right g) (·.function? = none)) (htidy : right.Tidy)
    (hp : OperatorTable.standard.get? op = some p) :
    Predicts g (Symbols.lookup (.list .binary [left, .leaf .mark ⟨line, .identifier op⟩, right]))
      (evalBinary eval (.list .binary [left, .leaf .mark ⟨line, .identifier op⟩, right]) g) (·.function? = none) := by
  obtain ⟨o, ho⟩ := ofSymbol_of_get hp
  have hmark : Operator.ofSymbol? (⟨line, .identifier op⟩ : Token).text = some o := ho
  unfold evalBinary
  simp only [Node.child?, Node.children, List.getElem?_cons_zero, List.getElem?_cons_succ, Option.bind_some,
    Node.token?, need_some, lift_self, pure_bind, hmark]
  by_cases hassign : o = .assign
  · subst hassign
    cases hn : left.name? with
    | none => exact .fail rfl
    | some name =>
      -- the right side is walked and evaluated before the name is bound; the left side is not looked at
      have hname : Symbols.assigned? left (.leaf .mark ⟨line, .identifier op⟩) = some name :=
        Invariant.assigned_of_symbol rfl hmark hn
      apply Predicts.congr _ fun σ => Symbols.lookup_assignment hname
      apply Predicts.bind hright (fun v hv => assign_predicts hv)
      intro σ
      rw [Symbols.free_define]
  · have hnone : Symbols.assigned? left (.leaf .mark ⟨line, .identifier op⟩) = none := by
      simp [Symbols.assigned?, Node.token?, hmark, hassign]
    cases o with
    | assign => exact absurd rfl hassign
    | _ =>
      apply Predicts.congr _ fun σ => Symbols.lookup_operator hnone
      apply Predicts.bind hleft _ (Symbols.free_lookup htidy)
      intro a _
      apply Predicts.bind hright _ fun σ => List.prefix_rfl
      intro b _
      split
      · rename_i hresult
        exact .pure (applyOperator_data hresult)
      · rename_i hresult
        exact .fail (applyOperator_reads_none hresult)

theorem evalNegative_predicts {n : Node} (hn : Predicts g (Symbols.lookup n) (eval n g) (·.function? = none)) :
    Predicts g (Symbols.lookup (.list .negative [n])) (evalNegative eval (.list .negative [n]) g)
      (·.function? = none) := by
  unfold evalNegative
  simp only [Node.child?, Node.children, List.getElem?_cons_zero, need_some, lift_self, pure_bind]
  apply Predicts.congr _ fun σ => Symbols.lookup_negative n
  apply Predicts.bind hn _ fun σ => List.prefix_rfl
  intro v _
  cases v with
  | number d => exact .pure rfl
  | _ => exact .fail rfl

/-- there is no function to call, so the first call fails before its arguments are evaluated -/
theorem evalCalls_predicts {walk : Symbols → Symbols} {v : Value} {calls : List Node} {line : Option Nat}
    (hv : v.function? = none) (hne : calls ≠ []) :
    Predicts g walk (evalCalls eval g line v calls) (·.function? = none) := by
  have hcall : ∀ arguments, ∃ e, call eval v arguments g line = fail e ∧ e.missing? = none := by
    intro arguments
    cases v with
    | function f => cases hv
    | _ => exact ⟨_, rfl, rfl⟩
  unfold evalCalls
  split
  · exact absurd rfl hne
  · rename_i arguments _
    obtain ⟨e, he, hname⟩ := hcall arguments
    rw [he]
    exact .fail hname
  · exact .fail rfl

/-- **One tree**, if the walk predicts the evaluation of its parts. -/
theorem evalNode_predicts {rounds : Nat} {b : Bool} {n : Node}
    (heval : ∀ b m, Fits l Q (.value b) m → m.Straight →
      Predicts g (Symbols.lookup m) (eval m g) (·.function? = none))
    (hn : Fits l Q (.value b) n) (hs : n.Straight) :
    Predicts g (Symbols.lookup n) (evalNode rounds eval n g) (·.function? = none) := by
  have hpart : ∀ {kind children}, n = .list kind children → ∀ m ∈ children, m.Straight := by
    rintro kind children rfl
    exact (Node.lacks_list.1 hs).2
  cases hn with
  | number _ => exact Predicts.congr (.pure rfl) fun σ => Symbols.lookup_data (by decide) _
  | string _ => exact Predicts.congr (.pure rfl) fun σ => Symbols.lookup_data (by decide) _
  | name _ _ _ => exact evalName_predicts _
  | negative ho => exact evalNegative_predicts (heval _ _ ho (hpart rfl _ (by simp)))
  | binary ha hb _ hp =>
    have hleft := heval _ _ ha (hpart rfl _ (by simp))
    have hright := heval _ _ hb (hpart rfl _ (by simp))
    exact evalBinary_predicts hleft hright (hb.tidy (by simp)) hp
  | primary _ ho hne hcs =>
    have htidy : ∀ c ∈ _, Node.Tidy c := fun c hc => (hcs c hc).tidy (by simp)
    apply Predicts.congr _ fun σ => Symbols.lookup_primary _ _
    apply Predicts.bind (heval _ _ ho (hpart rfl _ (by simp))) _ (Symbols.free_lookupAll htidy)
    intro v hv
    exact evalCalls_predicts hv hne
  | closure _ _ _ => exact absurd (by simp) (Node.lacks_list.1 hs).1

/-- **The walk predicts evaluation**, at every depth. -/
theorem evaluate_predicts (rounds depth : Nat) {b : Bool} {n : Node} (hn : Fits l Q (.value b) n) (hs : n.Straight) :
    Predicts g (Symbols.lookup n) (evaluate rounds depth n g) (·.function? = none) := by
  induction depth generalizing b n with
  | zero => exact .fail rfl
  | succ depth ih => exact evalNode_predicts (fun b m hm hms => ih hm hms) hn hs

end Trees

/-! ## Programs -/

/-- does the walk tell how a run of so many statements ends, as far as names go -/
def Symbols.Foretells (σ : Symbols) (count : Nat) : Except (Stop Fault) (List Value) → Prop
  | .ok vs => vs.length = count ∧ σ.unresolved = []
  | .error e => ∀ cause, e = .raised (.eval cause) → σ.Blames cause

/-- a straight statement is an expression -/
theorem Fits.value_of_straight {l : Level} {Q : Token → Prop} {n : Node} (hn : Fits l Q .program n)
    (he : n.is .empty = false) (hs : n.Straight) : Fits l Q (.value false) n := by
  have hkind : ∀ kind children, n = .list kind children → kind ∉ [.conditional, .loop, .definition, .closure] := by
    rintro kind children rfl
    exact (Node.lacks_list.1 hs).1
  cases hn with
  | definition _ _ _ _ _ => exact absurd (by simp) (hkind _ _ rfl)
  | nothing => cases he
  | statement hn =>
    cases hn with
    | simple hn => exact hn
    | conditional _ _ => exact absurd (by simp) (hkind _ _ rfl)
    | otherwise _ _ _ => exact absurd (by simp) (hkind _ _ rfl)
    | loop _ _ => exact absurd (by simp) (hkind _ _ rfl)

namespace Session

variable {l : Level} {Q : Token → Prop} {s : Session} {σ : Symbols} {n : Node} {ns : List Node}

theorem evalNode_predicts (hn : Fits l Q (.value false) n) (hs : n.Straight) (ht : Tracks σ s.globals s.heap) :
    match s.evalNode n with
    | (.ok _, s') => Tracks (Symbols.lookup n σ) s'.globals s'.heap
    | (.error e, _) => ∀ cause, e = .raised (.eval cause) → (Symbols.lookup n σ).Blames cause := by
  have h := evaluate_predicts maxRounds maxEvaluation hn hs σ s.heap ht
  rw [evalNode]
  cases hr : (evaluate maxRounds maxEvaluation n s.globals).run s.heap with
  | ok v heap =>
    rw [hr] at h
    exact h.1
  | error e heap =>
    rw [hr] at h
    intro cause hcause
    cases e with
    | endless => cases hcause
    | raised e =>
      cases hcause
      exact h

/-- **The walk predicts the run of statements**, one after the other up to the first error. -/
theorem evalNodes_predicts (hns : ∀ n ∈ ns, Fits l Q (.value false) n ∧ n.Straight)
    (ht : Tracks σ s.globals s.heap) : (Symbols.lookupAll ns σ).Foretells ns.length (s.evalNodes ns).1 := by
  induction ns generalizing s σ with
  | nil =>
    refine ⟨rfl, ?_⟩
    rw [Symbols.lookupAll, Symbols.unresolved, ht.free, ht.deferred]
    rfl
  | cons n more ih =>
    obtain ⟨⟨hn, hs⟩, hmore⟩ := List.forall_mem_cons.1 hns
    have hfirst := evalNode_predicts hn hs ht
    rw [Symbols.lookupAll, evalNodes]
    rcases hr : s.evalNode n with ⟨e | v, s'⟩
    · rw [hr] at hfirst
      intro cause hcause
      have htidy : ∀ m ∈ more, m.Tidy := fun m hm => (hmore m hm).1.tidy (by simp)
      exact (hfirst cause hcause).mono (Symbols.free_lookupAll htidy _)
    · rw [hr] at hfirst
      have hrest := ih hmore hfirst
      simp only
      rcases hr' : s'.evalNodes more with ⟨e | vs, s''⟩
      · rw [hr'] at hrest
        exact hrest
      · rw [hr'] at hrest
        exact ⟨congrArg (· + 1) hrest.1, hrest.2⟩

theorem new_tracks (l : Level) : Tracks .empty (new l).globals (new l).heap where
  size := Nat.one_pos
  outermost := rfl
  bound _ := rfl
  data h := by cases h
  free := rfl
  deferred := rfl

end Session

theorem checkProgram_clean {l : Level} {source : String} {ns : List Node} (h : parseProgram l source = .ok ns)
    (hu : (Symbols.ofProgram ns).unresolved = []) : checkProgram l source = .ok (.clean ns.length) := by
  simp only [checkProgram, h, hu]

theorem checkProgram_unresolved {l : Level} {source : String} {ns : List Node} {first : Reference}
    {more : List Reference} (h : parseProgram l source = .ok ns)
    (hu : (Symbols.ofProgram ns).unresolved = first :: more) :
    checkProgram l source = .ok (.unresolved (first :: more)) := by
  simp only [checkProgram, h, hu]

/-- **The check predicts straight runs.** For every program that parses, whose statements have no conditionals, loops,
definitions and closures: if it runs in a new session without an error, then its check is clean, with the number of its
values; and if a name is missing in the run, then the check finds open reads, and the first is that name on that line. -/
theorem check_predicts_run {l : Level} {source : String} {ns : List Node} (h : parseProgram l source = .ok ns)
    (hs : ∀ n ∈ ns, n.Lacks [.conditional, .loop, .definition, .closure]) :
    (∀ vs s', (Session.new l).evalSource source = (.ok vs, s') →
      checkProgram l source = .ok (.clean vs.length)) ∧
    ∀ name line s', (Session.new l).evalSource source = (.error (.raised (.eval (.undefinedName name line))), s') →
      ∃ more, checkProgram l source = .ok (.unresolved (⟨name, line⟩ :: more)) := by
  have hfits : ∀ n ∈ ns, Fits l Token.Scanned (.value false) n ∧ n.Straight := by
    intro n hn
    obtain ⟨hfit, hempty⟩ := parseProgram_fits h n hn
    exact ⟨hfit.value_of_straight hempty (hs n hn), hs n hn⟩
  have hforetells := Session.evalNodes_predicts hfits (Session.new_tracks l)
  rw [← evalSource_eq (show parseProgram (Session.new l).level source = .ok ns from h)] at hforetells
  constructor
  · intro vs s' hrun
    rw [hrun] at hforetells
    obtain ⟨hlength, hunresolved⟩ := hforetells
    rw [hlength]
    exact checkProgram_clean h hunresolved
  · intro name line s' hrun
    rw [hrun] at hforetells
    obtain ⟨more, hfree⟩ := List.head?_eq_some_iff.1 (hforetells _ rfl _ rfl)
    have hunresolved : (Symbols.ofProgram ns).unresolved = ⟨name, line⟩ :: (more ++
        (Symbols.ofProgram ns).deferred.filter fun r => !(Symbols.ofProgram ns).isBound r.name) := by
      rw [Symbols.unresolved, Symbols.ofProgram, hfree, List.cons_append]
    exact ⟨_, checkProgram_unresolved h hunresolved⟩

/-- a sum whose right side is missing: the run stops at the name, after it has bound another, and the check blames it -/
theorem check_predicts_missing_operand :
    ∃ ns, parseProgram .basic "x = 1\ny = x + -z" = .ok ns ∧
      (∀ n ∈ ns, n.Lacks [.conditional, .loop, .definition, .closure]) ∧
      ((Session.new .basic).evalSource "x = 1\ny = x + -z").1 =
        .error (.raised (.eval (.undefinedName "z" (some 2)))) ∧
      ∃ more, checkProgram .basic "x = 1\ny = x + -z" = .ok (.unresolved (⟨"z", some 2⟩ :: more)) := by
  have hparse : parseProgram .basic "x = 1\ny = x + -z" =
      .ok [.list .binary [.leaf .name ⟨1, .identifier "x"⟩, .leaf .mark ⟨1, .identifier "="⟩,
        .leaf .number ⟨1, .number Decimal.one⟩],
        .list .binary [.leaf .name ⟨2, .identifier "y"⟩, .leaf .mark ⟨2, .identifier "="⟩,
          .list .binary [.leaf .name ⟨2, .identifier "x"⟩, .leaf .mark ⟨2, .identifier "+"⟩,
            .list .negative [.leaf .name ⟨2, .identifier "z"⟩]]]] := by
    cbv
  have hrun : ((Session.new .basic).evalSource "x = 1\ny = x + -z").1 =
      .error (.raised (.eval (.undefinedName "z" (some 2)))) := by
    cbv
  refine ⟨_, hparse, ?_, hrun, (check_predicts_run hparse ?_).2 _ _ _ (Prod.ext hrun rfl)⟩
  · simp [Node.lacks_list, Node.lacks_leaf]
  · simp [Node.lacks_list, Node.lacks_leaf]

end Stone
