/-
Evaluation depends on the meaning of a tree and on nothing else. Two trees with the same meaning, evaluated in paired
scopes of heaps with the same meaning, end alike: with values that have the same meaning, or with errors that differ in
line numbers only; and the heaps have the same meaning again.

A tree with calls on an operand with calls needs more levels of evaluations than one that has them all in one list, and
it needs them for other parts. So nothing is said if one of the runs goes too deep. In both runs the operand below all
calls is evaluated first and then all the calls, from the inside out, only at different depths; and where a run does not
go too deep, a deeper one does the same.

- `evaluate_deeper`: more depth changes nothing, as long as it is not needed.
- `evalOperand_spine`: the calls on an operand can be made one after the other.
- `evaluation_depends_on_meaning`: the main result.
- `spliced_parameters_differ`: why what becomes parameters has to keep its children, and why functions are paired one to
  one.
-/
import Stone.Proofs.Pairing
import Stone.Session

namespace Stone

open Evaluation

/-! ## Likenesses -/

/-- the same tree in the same heap; the first run is excused for going too deep -/
def Likeness.sameTree : Likeness Unit where
  tree := Eq
  params := Eq
  function _ := Eq
  scope _ := Eq
  heap _ := Eq
  firstExcused := True
  secondExcused := False
  form {n m} h := h ▸ Node.SameForm.refl n
  arguments h := by
    cases h
    exact List.forall₂_same.2 fun _ _ => rfl
  function_name h := by rw [h]
  function_params h := h ▸ List.forall₂_same.2 fun n _ => Node.SameForm.refl n
  function_body h := by rw [h]
  function_scope h := by rw [h]
  function_id h h' := by rw [h, h']
  function_mono _ h := h
  scope_mono _ h := h
  heap_get name hk hs := by
    subst hk hs
    exact rel_imp (fun a _ hab => hab ▸ Value.Rel.refl a) (rel_refl _)
  heap_put name hk hs hv := by rw [hk, hs, Value.Rel.eq hv]
  heap_putNew name hk hs hv := by rw [hk, hs, Value.Rel.eq hv]
  scope_new hk hs := by
    subst hk hs
    exact ⟨(), le_rfl, rfl, rfl⟩
  function_new name hk hs hp hb := by
    subst hk hs hp hb
    exact ⟨(), le_rfl, rfl, rfl⟩

/-- trees, functions and heaps with the same meaning; both runs are excused for going too deep -/
def Likeness.sameMeaning : Likeness Pairing where
  tree := Node.SameMeaning true
  params := Node.SameMeaning false
  function := Function.SameMeaning
  scope := Pairing.scopes
  heap := Heap.SameMeaning
  firstExcused := True
  secondExcused := True
  form h := h.form
  arguments h := (h.narrow nofun false).children_same
  function_name h := h.name_eq
  function_params h := h.params.children_same.imp fun _ _ hn => hn.form
  function_body h := h.body
  function_scope h := h.scope
  function_id {W _ _ _ _} h h' :=
    ⟨fun hid => W.functions_unique.2 h.paired (hid ▸ h'.paired),
      fun hid => W.functions_unique.1 h.paired (hid ▸ h'.paired)⟩
  function_mono hW h := h.mono hW
  scope_mono hW h := hW.1 _ _ h
  heap_get name hk hs := hk.get name hs
  heap_put name hk hs hv := hk.put name hs hv
  heap_putNew name hk hs hv := hk.putNew name hs hv
  scope_new hk hs := hk.newScope hs
  function_new name hk hs hp hb := hk.newFunction name hs hp hb

open Likeness (sameTree sameMeaning)

/-! ## More depth -/

theorem same_trees (ns : List Node) : List.Forall₂ sameTree.tree ns ns := List.forall₂_same.2 fun _ _ => rfl

variable {rounds : Nat}

/-- **More depth** changes nothing where less does not go too deep. -/
theorem evaluate_deeper {depth deeper : Nat} (h : depth ≤ deeper) :
    sameTree.SimEval (evaluate rounds depth) (evaluate rounds deeper) := by
  induction depth generalizing deeper with
  | zero => exact fun _ _ _ _ _ _ _ _ _ _ => .first trivial
  | succ depth ih =>
    obtain ⟨deeper, rfl⟩ : ∃ k, deeper = k + 1 := ⟨deeper - 1, by omega⟩
    rintro _ n _ s _ rfl rfl
    cases n with
    | leaf kind t => exact Likeness.leaf_sim rfl rfl
    | list kind ns =>
      exact Likeness.node_sim (ih (Nat.le_of_succ_le_succ h)) (same_trees _) (fun i _ => rel_refl _) rfl

/-- the operand below all calls, and then all the calls, with at least as much depth for each -/
theorem evalOperand_spine {depth deeper : Nat} (h : depth ≤ deeper) (operand : Node) (calls : List Node)
    (line line' : Option Nat) (s : ScopeId) :
    sameTree.Sim () sameTree.value (evalOperand (evaluate rounds depth) s line operand calls)
      (evalOperand (evaluate rounds deeper) s line' operand.spine.1 (operand.spine.2 ++ calls)) := by
  induction operand using Node.induct generalizing calls depth line with
  | leaf kind t => exact Likeness.operand_sim (evaluate_deeper h) rfl (same_trees _) line line' rfl
  | list kind ns ih =>
    by_cases hk : kind = .primary ∧ ns ≠ []
    · obtain ⟨rfl, hns⟩ := hk
      obtain ⟨inner, innerCalls, rfl⟩ := List.exists_cons_of_ne_nil hns
      cases depth with
      | zero => exact fun _ _ _ => .first trivial
      | succ depth =>
        rw [Node.spine_primary, evalOperand_append, evalOperand, evaluate_primary]
        refine Likeness.Sim.bind (ih inner List.mem_cons_self (Nat.le_of_succ_le h) innerCalls _) fun _ _ v v' hv => ?_
        exact Likeness.calls_sim (evaluate_deeper h) hv (same_trees _) rfl
    · rw [Node.spine_single hk]
      exact Likeness.operand_sim (evaluate_deeper h) rfl (same_trees _) line line' rfl

/-! ## Runs on heaps with the same meaning -/

theorem tooDeep_of_withoutLine {e : Stop EvalError} {line : Option Nat}
    (h : e.map EvalError.withoutLine = (Stop.raised (.tooDeep line)).map EvalError.withoutLine) :
    ∃ line', e = .raised (.tooDeep line') := by
  cases e with
  | endless => cases h
  | raised e => cases e <;> first | exact ⟨_, rfl⟩ | cases h

/-- each of two runs may be replaced by a deeper one -/
theorem ends_of_deeper {W : Pairing} {r r' q q' : EStateM.Result (Stop EvalError) Heap Value}
    (h : sameTree.Ends sameTree.value () r q) (h' : sameTree.Ends sameTree.value () r' q')
    (hq : sameMeaning.Ends sameMeaning.value W q q') : sameMeaning.Ends sameMeaning.value W r r' := by
  cases h with
  | first _ => exact .first trivial
  | second hno => exact hno.elim
  | ok _ hv hk =>
    obtain rfl := Value.Rel.eq hv
    obtain rfl : _ = _ := hk
    cases h' with
    | first _ => exact .second trivial
    | second hno => exact hno.elim
    | ok _ hv' hk' =>
      obtain rfl := Value.Rel.eq hv'
      obtain rfl : _ = _ := hk'
      exact hq
    | error _ he' _ =>
      cases hq with
      | second _ =>
        obtain ⟨line, rfl⟩ := tooDeep_of_withoutLine he'
        exact .second trivial
  | error _ he hk =>
    obtain rfl : _ = _ := hk
    cases h' with
    | first _ => exact .second trivial
    | second hno => exact hno.elim
    | ok _ _ _ =>
      cases hq with
      | first _ =>
        obtain ⟨line, rfl⟩ := tooDeep_of_withoutLine he
        exact .first trivial
    | error _ he' hk' =>
      obtain rfl : _ = _ := hk'
      cases hq with
      | first _ =>
        obtain ⟨line, rfl⟩ := tooDeep_of_withoutLine he
        exact .first trivial
      | second _ =>
        obtain ⟨line, rfl⟩ := tooDeep_of_withoutLine he'
        exact .second trivial
      | error hw heq hk => exact .error hw (he.trans (heq.trans he'.symm)) hk

/-- trees with the same meaning, at whatever depths -/
theorem evaluate_same_meaning (rounds depth depth' : Nat) :
    sameMeaning.SimEval (evaluate rounds depth) (evaluate rounds depth') := by
  induction depth generalizing depth' with
  | zero => exact fun _ _ _ _ _ _ _ _ _ _ => .first trivial
  | succ depth ih =>
    cases depth' with
    | zero => exact fun _ _ _ _ _ _ _ _ _ _ => .second trivial
    | succ depth' =>
      intro W n m s t h hs
      cases h.form with
      | leaf ht => exact Likeness.leaf_sim ht hs
      | @list kind ns ms =>
        by_cases hk : kind = .primary
        · subst hk
          rcases h.primary_cases with ⟨rfl, rfl⟩ | ⟨a, calls, b, calls', rfl, rfl⟩
          · exact Likeness.Sim.fail rfl
          · obtain ⟨hoperand, hcalls⟩ := h.spine
            rw [evaluate_primary, evaluate_primary]
            intro h k hk
            have hspines := Likeness.operand_sim (ih depth') hoperand hcalls none none hs h k hk
            -- each run is at most as deep as the one along its spine
            exact ends_of_deeper (evalOperand_spine (Nat.le_refl depth) a calls _ none s h h rfl)
              (evalOperand_spine (Nat.le_refl depth') b calls' _ none t k k rfl) hspines
        · have hsame := h.narrow hk false
          exact Likeness.node_sim (ih depth') hsame.children_same (fun i hi => hsame.params_same hi) hs

/-! ## Runs that end -/

/-- evaluations nested beyond the limit -/
def WentTooDeep (r : EStateM.Result (Stop EvalError) Heap Value) : Prop :=
  ∃ line h, r = .error (.raised (.tooDeep line)) h

def Terminates (r : EStateM.Result (Stop EvalError) Heap Value) : Prop := ∀ h, r ≠ .error .endless h

/-- both runs ended, with values of the same meaning or with errors that differ in line numbers only; what was paired
still is, and the heaps have the same meaning -/
inductive EndAlike (W : Pairing) :
    EStateM.Result (Stop EvalError) Heap Value → EStateM.Result (Stop EvalError) Heap Value → Prop
  | value {W' : Pairing} {a b : Value} {h k : Heap} : W ≤ W' → a.SameMeaning W' b → h.SameMeaning W' k →
      EndAlike W (.ok a h) (.ok b k)
  | error {W' : Pairing} {e e' : EvalError} {h k : Heap} : W ≤ W' → e.withoutLine = e'.withoutLine →
      h.SameMeaning W' k → EndAlike W (.error (.raised e) h) (.error (.raised e') k)

/-- **Evaluation depends on the meaning of a tree.** Take two trees with the same meaning and paired scopes of heaps
with the same meaning. If neither run goes too deep and the first one ends, the second one ends as well, within as many
rounds of loops, and they end alike. -/
theorem evaluation_depends_on_meaning (rounds depth depth' : Nat) {W : Pairing} {n m : Node} {s t : ScopeId}
    {h k : Heap} (hn : n.SameMeaning true m) (hs : W.scopes s t) (hk : h.SameMeaning W k)
    (hdeep : ¬WentTooDeep ((evaluate rounds depth n s).run h))
    (hdeep' : ¬WentTooDeep ((evaluate rounds depth' m t).run k))
    (hends : Terminates ((evaluate rounds depth n s).run h)) :
    EndAlike W ((evaluate rounds depth n s).run h) ((evaluate rounds depth' m t).run k) := by
  have hsim := evaluate_same_meaning rounds depth depth' W n m s t hn hs h k hk
  generalize (evaluate rounds depth n s).run h = r at hsim hdeep hends
  generalize (evaluate rounds depth' m t).run k = r' at hsim hdeep'
  cases hsim with
  | first _ => exact absurd ⟨_, _, rfl⟩ hdeep
  | second _ => exact absurd ⟨_, _, rfl⟩ hdeep'
  | ok hW hab hk' => exact .value hW hab hk'
  | @error _ e e' _ _ hW he hk' =>
    cases e with
    | endless => exact absurd rfl (hends _)
    | raised e =>
      cases e' with
      | endless => cases he
      | raised e' => exact .error hW (Stop.raised.inj he) hk'

/-- `f(1)(1)` in two ways: as a call on an operand with a call, where `f` lies in the first scope, and as an operand
with two calls on other lines, where `f` has other lines and another number and lies in the second scope -/
theorem curried_call_depends_on_meaning :
    let name (line : Nat) (x : String) : Node := .leaf .name ⟨line, .identifier x⟩
    let argument (line : Nat) : Node := .list .arguments [.leaf .number ⟨line, .number Decimal.one⟩]
    let body (line : Nat) : Node :=
      .list .block [.list .closure [.list .parameters [name line "y"], .list .block [name line "x"]]]
    let f (id line : Nat) (s : ScopeId) : Function := ⟨id, some "f", .list .parameters [name line "x"], body line, s⟩
    let n : Node := .list .primary [.list .primary [name 1 "f", argument 1], argument 1]
    let m : Node := .list .primary [name 7 "f", argument 7, argument 8]
    let h : Heap := ⟨#[⟨[("f", .function (f 0 1 0))], none⟩], 1⟩
    let k : Heap := ⟨#[⟨[("g", .unit)], none⟩, ⟨[("f", .function (f 4 2 1))], none⟩], 5⟩
    ∃ W : Pairing, W.scopes 0 1 ∧ n.SameMeaning true m ∧ h.SameMeaning W k ∧
      (∃ h', (evaluate maxRounds maxEvaluation n 0).run h = .ok (.number Decimal.one) h') ∧
      EndAlike W ((evaluate maxRounds maxEvaluation n 0).run h) ((evaluate maxRounds maxEvaluation m 1).run k) := by
  intro name argument body f n m h k
  let W : Pairing :=
    { scopes := fun s t => s = 0 ∧ t = 1
      functions := fun i j => i = 0 ∧ j = 4
      scopes_unique := ⟨fun _ _ _ h h' => h.1.trans h'.1.symm, fun _ _ _ h h' => h.2.trans h'.2.symm⟩
      functions_unique := ⟨fun _ _ _ h h' => h.1.trans h'.1.symm, fun _ _ _ h h' => h.2.trans h'.2.symm⟩ }
  have hn : n.SameMeaning true m := Node.sameMeaning_iff.2 rfl
  have hf : (f 0 1 0).SameMeaning W (f 4 2 1) :=
    ⟨⟨rfl, rfl⟩, rfl, Node.sameMeaning_iff.2 rfl, Node.sameMeaning_iff.2 rfl, ⟨rfl, rfl⟩⟩
  have hk : h.SameMeaning W k := by
    refine ⟨?_, ?_, ?_, ?_⟩
    · rintro _ _ ⟨rfl, rfl⟩
      decide
    · rintro _ _ ⟨rfl, rfl⟩
      decide
    · rintro _ _ ⟨rfl, rfl⟩
      exact .none
    · rintro _ _ ⟨rfl, rfl⟩ x
      show Option.Rel _ (List.lookup x [("f", Value.function (f 0 1 0))])
        (List.lookup x [("f", Value.function (f 4 2 1))])
      rw [List.lookup_cons, List.lookup_cons]
      cases x == "f" with
      | true => exact .some (.function hf)
      | false => exact .none
  let one : Value := .number Decimal.one
  have hrun : (evaluate maxRounds maxEvaluation n 0).run h =
      .ok one ⟨h.scopes ++ #[⟨[("x", one)], some 0⟩, ⟨[("y", one)], some 1⟩], 2⟩ := by
    simp only [h, n, f, body, argument, name]
    cbv
  have hrun' : (evaluate maxRounds maxEvaluation m 1).run k =
      .ok one ⟨k.scopes ++ #[⟨[("x", one)], some 1⟩, ⟨[("y", one)], some 2⟩], 6⟩ := by
    simp only [k, m, f, body, argument, name]
    cbv
  refine ⟨W, ⟨rfl, rfl⟩, hn, hk, ⟨_, hrun⟩, evaluation_depends_on_meaning _ _ _ hn ⟨rfl, rfl⟩ hk ?_ ?_ ?_⟩
  · rw [hrun]
    rintro ⟨_, _, hdeep⟩
    cases hdeep
  · rw [hrun']
    rintro ⟨_, _, hdeep⟩
    cases hdeep
  · rw [hrun]
    intro _ hdeep
    cases hdeep

/-- **What becomes parameters has to keep its children, and functions are paired one to one.** Calls that are taken
together in the parameters of a closure are more parameters, so that the call of the closure fails; and two names of one
function are equal, but two functions with the same name, parameters, body and scope are not. -/
theorem spliced_parameters_differ :
    let name (x : String) : Node := .leaf .name ⟨1, .identifier x⟩
    let one : Node := .leaf .number ⟨1, .number Decimal.one⟩
    let apart : Node := .list .primary [.list .primary [name "x", name "y"], name "z"]
    let together : Node := .list .primary [name "x", name "y", name "z"]
    let called (params : Node) : Node :=
      .list .primary [.list .closure [params, .list .block []], .list .arguments [one, one]]
    let f (id : Nat) : Value := .function ⟨id, some "f", .list .parameters [], .list .block [], 0⟩
    let compared : Node := .list .binary [name "f", .leaf .mark ⟨1, .identifier "=="⟩, name "g"]
    (Node.Change true apart together ∧
      (∃ h, (evaluate maxRounds maxEvaluation (called apart) 0).run ⟨#[{}], 0⟩ = .ok .zero h) ∧
      ∃ k, (evaluate maxRounds maxEvaluation (called together) 0).run ⟨#[{}], 0⟩ =
        .error (.raised (.arity 3 2 (some 1))) k) ∧
      (evaluate maxRounds maxEvaluation compared 0).run ⟨#[⟨[("f", f 0), ("g", f 0)], none⟩], 2⟩ =
        .ok (.ofBool true) ⟨#[⟨[("f", f 0), ("g", f 0)], none⟩], 2⟩ ∧
      (evaluate maxRounds maxEvaluation compared 0).run ⟨#[⟨[("f", f 0), ("g", f 1)], none⟩], 2⟩ =
        .ok (.ofBool false) ⟨#[⟨[("f", f 0), ("g", f 1)], none⟩], 2⟩ := by
  intro name one apart together called f compared
  refine ⟨⟨.splice, ⟨⟨#[{}, ⟨[("z", .number Decimal.one)], some 0⟩], 1⟩, ?_⟩, ⟨⟨#[{}], 1⟩, ?_⟩⟩, ?_, ?_⟩
  · simp only [called, apart, one, name]
    cbv
  · simp only [called, together, one, name]
    cbv
  · simp only [compared, f, name]
    cbv
  · simp only [compared, f, name]
    cbv

end Stone
