/-
Two parsers side by side. Whether two runs do the same can mean many things: the streams may differ, the tables, the
nesting or the budget, and some errors may be excused. What all such comparisons share is that they go along with the way
parsing is put together. A comparison that goes along with single values, sequencing and the few ways to stop
(`Comparison`) goes along with choices, repetitions, operator chains and whole rules, once it does so for the elements
that take a token.

Trees are compared up to a change `f` of their line numbers; with the identity they are equal.

- `Comparison.climb`, `Comparison.parseMany`: operator chains and repetitions, with budgets of their own.
- `Comparison.parseElement`, `Comparison.parseElements`: the same elements in two tables.
- `Comparison.parseRule`: the same rule.
-/
import Stone.Proofs.Sight
import Stone.Proofs.Lines

namespace Stone

open TokenStream Parsing Grammar

/-- the same tree up to line numbers -/
def SameTree (f : Nat → Nat) (n m : Node) : Prop := n.mapLines f = m.mapLines f

def SameTrees (f : Nat → Nat) (ns ms : List Node) : Prop := ns.map (Node.mapLines f) = ms.map (Node.mapLines f)

/-- the same operator, if there is one, with its precedence -/
def SameOperator (f : Nat → Nat) (o o' : Option (Precedence × Token)) : Prop :=
  o.map (Prod.map id (Token.mapLine f)) = o'.map (Prod.map id (Token.mapLine f))

/-- the same alternative, if there is one -/
inductive SameChoice (ids : List RuleId) : Option RuleId → Option RuleId → Prop
  | none : SameChoice ids none none
  | some {id : RuleId} : id ∈ ids → SameChoice ids (some id) (some id)

section Trees

variable {f : Nat → Nat} {n m : Node} {ns ms ns' ms' : List Node}

theorem SameTrees.one (h : SameTree f n m) : SameTrees f [n] [m] := congrArg (fun x => [x]) h

theorem SameTrees.nil : SameTrees f [] [] := rfl

theorem SameTrees.append (h : SameTrees f ns ms) (h' : SameTrees f ns' ms') : SameTrees f (ns ++ ns') (ms ++ ms') := by
  rw [SameTrees, List.map_append, List.map_append, h, h']

theorem SameTree.isVacuous (h : SameTree f n m) : n.isVacuous = m.isVacuous := by
  rw [← Node.isVacuous_mapLines f n, ← Node.isVacuous_mapLines f m, h]

theorem SameTree.make (b : Build) (h : SameTrees f ns ms) : SameTree f (b.make ns) (b.make ms) := by
  rw [SameTree, mapLines_make, mapLines_make, h]

theorem mapLines_id (n : Node) : n.mapLines id = n := by
  induction n using Node.induct with
  | leaf kind t => rfl
  | list kind children ih => rw [Node.mapLines_list, List.map_congr_left ih, List.map_id']

/-- up to no change of lines is equal -/
theorem SameTree.eq (h : SameTree id n m) : n = m := by
  rwa [SameTree, mapLines_id, mapLines_id] at h

/-- a tree that may be left out, before others -/
theorem SameTrees.unless_vacuous (h : SameTree f n m) (h' : SameTrees f ns ms) :
    SameTrees f (if n.isVacuous then ns else n :: ns) (if m.isVacuous then ms else m :: ms) := by
  rw [h.isVacuous]
  cases m.isVacuous with
  | true => exact h'
  | false => exact (SameTrees.one h).append h'

theorem SameTree.operation {left left' right right' : Node} {op op' : Token} (kind : ListKind)
    (hl : SameTree f left left') (ho : op.mapLine f = op'.mapLine f) (hr : SameTree f right right') :
    SameTree f (kind.build [left, .leaf .mark op, right]) (kind.build [left', .leaf .mark op', right']) := by
  have hop : SameTree f (.leaf .mark op) (.leaf .mark op') := by
    rw [SameTree, Node.mapLines_leaf, Node.mapLines_leaf, ho]
  rw [SameTree, mapLines_build, mapLines_build]
  exact congrArg kind.build (((SameTrees.one hl).append (SameTrees.one hop)).append (SameTrees.one hr))

end Trees

/-! ## Comparisons -/

/-- a relation between actions, by a relation between what they give, that goes along with single values, sequencing and
the ways to stop. An endless action on the left is like every action. -/
structure Comparison (K : ∀ {α β : Type}, (α → β → Prop) → Parsing α → Parsing β → Prop) : Prop where
  pure {α β : Type} {V : α → β → Prop} {a : α} {b : β} : V a b → K V (pure a) (pure b)
  bind {α β γ δ : Type} {V : α → β → Prop} {W : γ → δ → Prop} {p : Parsing α} {q : Parsing β} {k : α → Parsing γ}
    {k' : β → Parsing δ} : K V p q → (∀ a b, V a b → K W (k a) (k' b)) → K W (p >>= k) (q >>= k')
  endless {α β : Type} {V : α → β → Prop} (q : Parsing β) : K V (throw .endless) q
  /-- no alternative can begin with the next token -/
  stuck {α β : Type} {V : α → β → Prop} :
    K V (do fail (.unexpected (← peek) none)) (do fail (.unexpected (← peek) none))
  tooDeep {α β : Type} {V : α → β → Prop} : K V (do fail (.tooDeep (← peek).line)) (do fail (.tooDeep (← peek).line))

/-- an endless action on the right is like every action as well -/
def Tolerant (K : ∀ {α β : Type}, (α → β → Prop) → Parsing α → Parsing β → Prop) : Prop :=
  ∀ {α β : Type} (V : α → β → Prop) (p : Parsing α), K V p (throw .endless)

/-- takes the next operator, if the one that waits leaves its operand to it -/
def takeOperator (table : OperatorTable) (waiting : Option Precedence) :
    Parsing (Option (Precedence × Token)) := do
  match ← nextOperator table with
  | none => return none
  | some p => if yields waiting p then return some (p, ← read) else return none

/-- a chain goes on after the operator that it has taken -/
theorem climb_succ (table : OperatorTable) (kind : ListKind) (operand : Parsing Node) (budget : Nat)
    (waiting : Option Precedence) (left : Node) :
    climb table kind operand (budget + 1) waiting left = (do
      match ← takeOperator table waiting with
      | none => return left
      | some (p, op) =>
        let first ← operand
        let right ← climb table kind operand budget (some p) first
        climb table kind operand budget waiting (kind.build [left, .leaf .mark op, right])) := by
  rw [climb, Parsing.lift_self, takeOperator, bind_assoc]
  congr 1
  funext o
  cases o with
  | none => simp
  | some p =>
    simp only
    split <;> simp

theorem takeOperator_eq (table : OperatorTable) (waiting : Option Precedence) :
    takeOperator table waiting = (do
      match operatorOf table (← peek) with
      | none => return none
      | some p => if yields waiting p then return some (p, ← read) else return none) := by
  rw [takeOperator, nextOperator, bind_assoc]
  congr 1
  funext t
  rw [operatorOf]
  cases t.lexeme <;> rfl

namespace Comparison

variable {K : ∀ {α β : Type}, (α → β → Prop) → Parsing α → Parsing β → Prop} (h : Comparison K) {f : Nat → Nat}
  {budget budget' : Nat}

include h

theorem firstMatch {ask ask' : RuleId → Parsing Bool} {ids all : List RuleId} (hids : ids ⊆ all)
    (hask : ∀ id ∈ ids, K Eq (ask id) (ask' id)) :
    K (SameChoice all) (firstMatch ask ids) (firstMatch ask' ids) := by
  induction ids with
  | nil => exact h.pure .none
  | cons id more ih =>
    obtain ⟨hid, hmore⟩ := List.cons_subset.1 hids
    refine h.bind (hask id List.mem_cons_self) ?_
    rintro b _ rfl
    cases b with
    | true => exact h.pure (.some hid)
    | false => exact ih hmore fun x hx => hask x (List.mem_cons_of_mem _ hx)

theorem parseMany {ask ask' : Parsing Bool} {parse parse' : Parsing Node} (hask : K Eq ask ask')
    (hp : K (SameTree f) parse parse') (hb : budget ≤ budget' ∨ Tolerant K) :
    K (SameTrees f) (parseMany ask parse budget) (parseMany ask' parse' budget') := by
  induction budget generalizing budget' with
  | zero => exact h.endless _
  | succ budget ih =>
    cases budget' with
    | zero => exact hb.resolve_left (Nat.not_succ_le_zero _) _ _
    | succ budget' =>
      refine h.bind hask ?_
      rintro b _ rfl
      cases b with
      | false => exact h.pure .nil
      | true =>
        exact h.bind hp fun n m hn => h.bind (ih (hb.imp_left Nat.le_of_succ_le_succ)) fun ns ms hns =>
          h.pure (.unless_vacuous hn hns)

theorem climb {table : OperatorTable} {kind : ListKind} {operand operand' : Parsing Node}
    (hop : ∀ waiting, K (SameOperator f) (takeOperator table waiting) (takeOperator table waiting))
    (hp : K (SameTree f) operand operand') (hb : budget ≤ budget' ∨ Tolerant K) (waiting : Option Precedence)
    {left left' : Node} (hleft : SameTree f left left') :
    K (SameTree f) (climb table kind operand budget waiting left) (climb table kind operand' budget' waiting left') := by
  induction budget generalizing budget' waiting left left' with
  | zero => exact h.endless _
  | succ budget ih =>
    cases budget' with
    | zero => exact hb.resolve_left (Nat.not_succ_le_zero _) _ _
    | succ budget' =>
      have hb := hb.imp_left Nat.le_of_succ_le_succ
      rw [climb_succ, climb_succ]
      refine h.bind (hop waiting) fun o o' ho => ?_
      rcases o with _ | ⟨p, op⟩ <;> rcases o' with _ | ⟨p', op'⟩ <;> simp [SameOperator] at ho
      · exact h.pure hleft
      · obtain ⟨rfl, ho⟩ := ho
        exact h.bind hp fun first first' hfirst => h.bind (ih hb _ hfirst) fun right right' hright =>
          ih hb _ (.operation kind hleft ho hright)

section Elements

variable {g g' : Grammar} {parse parse' : RuleId → Parsing Node}

/-- two choices that choose the same alternative -/
theorem choice {ids ids' all : List RuleId}
    (hchoice : K (SameChoice all) (Grammar.firstMatch g.canBegin ids) (Grammar.firstMatch g'.canBegin ids'))
    (hp : ∀ id ∈ all, K (SameTree f) (parse id) (parse' id)) :
    K (SameTrees f) (g.parseElement budget parse (.choice ids)) (g'.parseElement budget' parse' (.choice ids')) := by
  refine h.bind hchoice fun o o' ho => ?_
  cases ho with
  | none => exact h.stuck
  | some hid => exact h.bind (hp _ hid) fun n m hn => h.pure (.one hn)

/-- **The same element in two tables.** What it looks at, calls and takes is compared in the same way. -/
theorem parseElement {e : Element} (hask : ∀ id ∈ Language.calls e, K Eq (g.canBegin id) (g'.canBegin id))
    (hp : ∀ id ∈ Language.calls e, K (SameTree f) (parse id) (parse' id))
    (htakes : e.takes = true →
      K (SameTrees f) (g.parseElement budget parse e) (g'.parseElement budget' parse' e))
    (hop : ∀ id table kind, e = .operators id table kind →
      ∀ waiting, K (SameOperator f) (takeOperator table waiting) (takeOperator table waiting))
    (hb : budget ≤ budget' ∨ Tolerant K) :
    K (SameTrees f) (g.parseElement budget parse e) (g'.parseElement budget' parse' e) := by
  cases e with
  | token cls kind | literal texts keep => exact htakes rfl
  | rule id => exact h.bind (hp id List.mem_cons_self) fun n m hn => h.pure (.one hn)
  | choice ids => exact h.choice (h.firstMatch (List.Subset.refl ids) hask) hp
  | optional id =>
    refine h.bind (hask id List.mem_cons_self) ?_
    rintro b _ rfl
    cases b with
    | true => exact h.bind (hp id List.mem_cons_self) fun n m hn => h.pure (.unless_vacuous hn .nil)
    | false => exact h.pure .nil
  | many id => exact h.parseMany (hask id List.mem_cons_self) (hp id List.mem_cons_self) hb
  | operators id table kind =>
    exact h.bind (hp id List.mem_cons_self) fun n m hn =>
      h.bind (h.climb (hop id table kind rfl) (hp id List.mem_cons_self) hb none hn) fun n m hn => h.pure (.one hn)

theorem parseElements_cons {e e' : Element} {es es' : List Element}
    (he : K (SameTrees f) (g.parseElement budget parse e) (g'.parseElement budget' parse' e'))
    (hes : K (SameTrees f) (g.parseElements budget parse es) (g'.parseElements budget' parse' es')) :
    K (SameTrees f) (g.parseElements budget parse (e :: es)) (g'.parseElements budget' parse' (e' :: es')) :=
  h.bind he fun _ _ hns => h.bind hes fun _ _ hms => h.pure (hns.append hms)

theorem parseElements {es : List Element}
    (hes : ∀ e ∈ es, K (SameTrees f) (g.parseElement budget parse e) (g'.parseElement budget' parse' e)) :
    K (SameTrees f) (g.parseElements budget parse es) (g'.parseElements budget' parse' es) := by
  induction es with
  | nil => exact h.pure .nil
  | cons e es ih =>
    exact h.parseElements_cons (hes e List.mem_cons_self) (ih fun x hx => hes x (List.mem_cons_of_mem _ hx))

/-- **A rule** that builds its tree in the same way from elements that compare. -/
theorem parseRule {nesting nesting' : Nat} {id id' : RuleId} (hbuild : (g.rule id).build = (g'.rule id').build)
    (hes : K (SameTrees f) (g.parseElements budget (g.parseRule budget nesting) (g.rule id).elements)
      (g'.parseElements budget' (g'.parseRule budget' nesting') (g'.rule id').elements)) :
    K (SameTree f) (g.parseRule budget (nesting + 1) id) (g'.parseRule budget' (nesting' + 1) id') := by
  rw [Grammar.parseRule, Grammar.parseRule, parseInside, parseInside, hbuild]
  exact h.bind hes fun ns ms hns => h.pure (.make _ hns)

end Elements

end Comparison

end Stone
