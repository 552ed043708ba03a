/-
Evaluation of alike trees. On alike heaps they give alike values, or errors that differ in line numbers only. A tree
with merged calls may need less depth, so where calls may be merged nothing is said if the first evaluation goes too
deep; the second one may then go on.

- `Likeness.alike`: what evaluation needs to know of alike trees and heaps.
- `evaluate_sim`: evaluation of one tree, with at least as much room on the right or, without merging, as much.
- `evalNodes_sim`: statements in sessions.
-/
import Stone.Proofs.Alike
import Stone.Proofs.Likeness
import Stone.Session

namespace Stone

open Evaluation

/-! ## The likeness -/

/-- a child of alike lists, with what is known of all children on the left -/
theorem getElem?_alike_mem {merged : Bool} {ns ms : List Node} {P : Node → Prop}
    (h : List.Forall₂ (Node.Alike merged) ns ms) (hP : ∀ n ∈ ns, P n) (i : Nat) :
    Option.Rel (fun n m => n.Alike merged m ∧ P n) ns[i]? ms[i]? := by
  have hi := getElem?_rel h i
  have hm : ∀ n, ns[i]? = some n → P n := fun n hn => hP n (List.mem_of_getElem? hn)
  generalize ns[i]? = a at hi hm
  generalize ms[i]? = b at hi
  cases hi with
  | none => exact .none
  | some hab => exact .some ⟨hab, hm _ rfl⟩

/-- alike trees on alike heaps, whose scopes and functions have the same numbers; the first run is excused for going too
deep where calls may be merged -/
def Likeness.alike (merged : Bool) : Likeness Unit where
  tree := Node.Alike merged
  params n m := n.Alike merged m ∧ (merged = true → n.is .primary = false)
  function _ := Function.Alike merged
  scope _ := Eq
  heap _ := Heap.Alike merged
  firstExcused := merged = true
  secondExcused := False
  form h := h.form
  arguments h := h.children_alike fun _ => rfl
  function_name h := h.name_eq
  function_params h := h.params_form
  function_body h := h.body
  function_scope h := h.scope_eq
  function_id h h' := by rw [h.id_eq, h'.id_eq]
  function_mono _ h := h
  scope_mono _ h := h
  heap_get name hk hs := by
    subst hs
    exact rel_imp (fun _ _ => Value.alike_iff.1) hk.get
  heap_put name hk hs hv := by
    subst hs
    exact hk.put (Value.alike_iff.2 hv)
  heap_putNew name hk hs hv := by
    subst hs
    exact hk.putNew (Value.alike_iff.2 hv)
  scope_new hk hs := by
    subst hs
    exact ⟨(), le_rfl, hk.newScope _⟩
  function_new name hk hs hp hb := by
    subst hs
    refine ⟨(), le_rfl, ⟨hk.functionCount_eq, rfl, rfl, hp.1, hb, hp.2⟩, ?_, hk.scopes⟩
    exact congrArg (· + 1) hk.functionCount_eq

/-! ## Merged calls -/

section Steps

variable {merged : Bool}

/-- operands with calls, merged or not; the lines that errors name may be any. Each merge needs one level of depth less
on the right, so the induction is on the depth on the left. -/
theorem evalOperand_sim {rounds d c : Nat}
    (H : ∀ e ≤ d, ∀ c, e ≤ c → (merged = false → e = c) →
      (Likeness.alike merged).SimEval (evaluate rounds e) (evaluate rounds c))
    (hd : d ≤ c) (hc : merged = false → d = c) {a a' : Node} {calls calls' : List Node}
    (h : Node.Alike merged (.list .primary (a :: calls)) (.list .primary (a' :: calls'))) (line line' : Option Nat)
    (s : ScopeId) :
    (Likeness.alike merged).Sim () (Likeness.alike merged).value (evalOperand (evaluate rounds d) s line a calls)
      (evalOperand (evaluate rounds c) s line' a' calls') := by
  induction d generalizing a a' calls calls' line with
  | zero =>
    cases h with
    | list hab _ =>
      cases hab with
      | cons ha hcalls => exact Likeness.operand_sim (H 0 (Nat.le_refl 0) c hd hc) ha hcalls line line' rfl
    | merge hm _ _ => exact fun _ _ _ => .first hm
  | succ d ih =>
    have heval := H (d + 1) (Nat.le_refl _) c hd hc
    cases h with
    | list hab _ =>
      cases hab with
      | cons ha hcalls => exact Likeness.operand_sim heval ha hcalls line line' rfl
    | merge hm hinner hmore =>
      rw [evalOperand_append, evalOperand, evaluate_primary]
      have hno : merged = false → d = c := fun h => absurd (h.symm.trans hm) Bool.false_ne_true
      refine Likeness.Sim.bind (ih (fun e he => H e (by omega)) (by omega) hno hinner _) fun _ _ v w hv => ?_
      exact Likeness.calls_sim heval hv hmore rfl

/-- **Evaluation of alike trees** has alike ends. -/
theorem evaluate_sim (rounds d c : Nat) (hd : d ≤ c) (hc : merged = false → d = c) :
    (Likeness.alike merged).SimEval (evaluate rounds d) (evaluate rounds c) := by
  induction d using Nat.strongRecOn generalizing c with
  | ind d ih =>
    rintro _ n m s _ h rfl
    cases d with
    | zero =>
      cases hm : merged with
      | true => exact fun _ _ _ => .first rfl
      | false =>
        obtain rfl := hc hm
        exact Likeness.Sim.fail rfl
    | succ d =>
      obtain ⟨c, rfl⟩ : ∃ k, c = k + 1 := ⟨c - 1, by omega⟩
      have heval : ∀ e ≤ d, ∀ c, e ≤ c → (merged = false → e = c) →
          (Likeness.alike merged).SimEval (evaluate rounds e) (evaluate rounds c) :=
        fun e he c hle hc => ih e (by omega) c hle hc
      have hc' : merged = false → d = c := fun h => Nat.succ.inj (hc h)
      cases h with
      | leaf ht => exact Likeness.leaf_sim ht rfl
      | list hab hu =>
        refine Likeness.node_sim (heval d (Nat.le_refl d) c (by omega) hc') hab ?_ rfl
        intro i hi
        exact getElem?_alike_mem hab (fun n hn hm => hu hm (ListKind.makesFunction_of_place hi) n hn) i
      | merge hm hinner hmore =>
        rw [evaluate_primary, evaluate_primary]
        exact evalOperand_sim heval (by omega) hc' (.merge hm hinner hmore) _ _ s

end Steps

/-! ## Sessions -/

/-- the fault without its place -/
def Fault.withoutLine : Fault → Fault
  | .parse e => .parse e
  | .eval e => .eval e.withoutLine

/-- sessions in alike heaps -/
structure Session.Alike (merged : Bool) (s t : Session) : Prop where
  globals_eq : s.globals = t.globals
  heap : s.heap.Alike merged t.heap

/-- outcomes of running statements that are alike, or a first one that went too deep where calls may be merged -/
inductive Outcomes (merged : Bool) {α : Type} (R : α → α → Prop) :
    Except (Stop Fault) α × Session → Except (Stop Fault) α × Session → Prop
  | tooDeep {line : Option Nat} {s : Session} {r : Except (Stop Fault) α × Session} :
      merged = true → Outcomes merged R (.error (.raised (.eval (.tooDeep line))), s) r
  | ok {a b : α} {s t : Session} : R a b → s.Alike merged t → Outcomes merged R (.ok a, s) (.ok b, t)
  | error {e e' : Stop Fault} {s t : Session} : e.map Fault.withoutLine = e'.map Fault.withoutLine →
      s.Alike merged t → Outcomes merged R (.error e, s) (.error e', t)

section Sessions

variable {merged : Bool} {s t : Session}

theorem Session.new_alike (l k : Level) : (Session.new l).Alike merged (Session.new k) :=
  ⟨rfl, rfl, .cons ⟨rfl, .nil⟩ .nil⟩

theorem evalNode_outcomes (hs : s.Alike merged t) {n m : Node} (h : n.Alike merged m) :
    Outcomes merged (Value.Alike merged) (s.evalNode n) (t.evalNode m) := by
  have he := evaluate_sim maxRounds maxEvaluation maxEvaluation (Nat.le_refl _) (fun _ => rfl) () n m s.globals _ h rfl
    s.heap t.heap hs.heap
  rw [Session.evalNode, Session.evalNode, ← hs.globals_eq]
  generalize (evaluate maxRounds maxEvaluation n s.globals).run s.heap = r at he
  generalize (evaluate maxRounds maxEvaluation m s.globals).run t.heap = r' at he
  cases he with
  | first hm => exact .tooDeep hm
  | second hno => exact hno.elim
  | ok _ hv hk => exact .ok (Value.alike_iff.2 hv) ⟨rfl, hk⟩
  | @error _ e e' _ _ _ he hk =>
    have hmap : ∀ e : Stop EvalError, (e.map Fault.eval).map Fault.withoutLine =
        (e.map EvalError.withoutLine).map Fault.eval := by
      intro e
      cases e <;> rfl
    exact .error (by rw [hmap, hmap, he]) ⟨rfl, hk⟩

/-- **Alike statements in alike sessions** have alike outcomes. -/
theorem evalNodes_sim (hs : s.Alike merged t) {ns ms : List Node} (h : List.Forall₂ (Node.Alike merged) ns ms) :
    Outcomes merged (List.Forall₂ (Value.Alike merged)) (s.evalNodes ns) (t.evalNodes ms) := by
  induction h generalizing s t with
  | nil => exact .ok .nil hs
  | @cons n m ns ms hn _ ih =>
    have h1 := evalNode_outcomes hs hn
    rw [Session.evalNodes, Session.evalNodes]
    generalize s.evalNode n = r at h1
    generalize t.evalNode m = r' at h1
    cases h1 with
    | tooDeep hm => exact .tooDeep hm
    | error he hk => exact .error he hk
    | @ok v w s' t' hv hk =>
      have h2 := ih hk
      simp only
      generalize s'.evalNodes ns = r at h2
      generalize t'.evalNodes ms = r' at h2
      cases h2 with
      | tooDeep hm => exact .tooDeep hm
      | error he hk => exact .error he hk
      | ok hvs hk => exact .ok (.cons hv hvs) hk

end Sessions

end Stone
