/-
Trees, values and errors of one form. What evaluation reads of a tree before it goes to the children is the kind of the
tree and, in a leaf, the lexeme; what it reads of a value is all but the inside of a function. Two runs that are held
side by side may differ in what is left: the lines of tokens and errors, the children of lists, and functions.

- `Node.SameForm`: trees that show the same before their children are looked at.
- `Value.Rel`: values that differ at most in functions, which are related.
- `getElem?_rel`: related lists have related parts at each place.
-/
import Mathlib.Data.List.Forall2
import Mathlib.Data.Option.Basic
import Stone.EvalError
import Stone.Value

namespace Stone

/-- the error without its place -/
def EvalError.withoutLine : EvalError → EvalError
  | undefinedName name _ => undefinedName name none
  | badAssignment _ => badAssignment none
  | badType op found _ => badType op found none
  | badOperator op _ => badOperator op none
  | arity expected got _ => arity expected got none
  | notAFunction found _ => notAFunction found none
  | divisionByZero _ => divisionByZero none
  | overflow _ => overflow none
  | tooDeep _ => tooDeep none
  | cannotEvaluate kind _ => cannotEvaluate kind none

/-! ## Forms of trees -/

/-- do lists of this kind keep a child as the parameters of a function, and which -/
def ListKind.paramsPlace? : ListKind → Option Nat
  | .definition => some 1
  | .closure => some 0
  | _ => none

namespace Node

/-- leaves of one kind with one lexeme, or lists of one kind -/
inductive SameForm : Node → Node → Prop
  | leaf {kind : LeafKind} {t u : Token} : t.lexeme = u.lexeme → SameForm (.leaf kind t) (.leaf kind u)
  | list {kind : ListKind} {ns ms : List Node} : SameForm (.list kind ns) (.list kind ms)

namespace SameForm

variable {n m : Node}

theorem refl (n : Node) : n.SameForm n := by
  cases n with
  | leaf kind t => exact .leaf rfl
  | list kind ns => exact .list

theorem is_eq (h : n.SameForm m) (kind : ListKind) : n.is kind = m.is kind := by
  cases h <;> rfl

theorem token (h : n.SameForm m) : Option.Rel (fun t u : Token => t.lexeme = u.lexeme) n.token? m.token? := by
  cases h with
  | leaf ht => exact .some ht
  | list => exact .none

theorem name_eq (h : n.SameForm m) : n.name? = m.name? := by
  cases h with
  | @leaf kind t u ht => cases kind <;> simp [Node.name?, Token.text, ht]
  | list => rfl

end SameForm

/-- leaves with the same lexemes have the same texts -/
theorem texts_eq {ns ms : List Node} (h : List.Forall₂ SameForm ns ms) :
    (ns.filterMap fun n => n.token?.map Token.text) = ms.filterMap fun n => n.token?.map Token.text := by
  rw [← List.forall₂_eq_eq_eq]
  refine List.rel_filterMap (fun n m hn => ?_) h
  cases hn with
  | leaf ht => exact .some (by rw [Token.text, Token.text, ht])
  | list => exact .none

end Node

theorem getElem?_rel {α β : Type} {R : α → β → Prop} {as : List α} {bs : List β} (h : List.Forall₂ R as bs) (i : Nat) :
    Option.Rel R as[i]? bs[i]? := by
  induction h generalizing i with
  | nil => exact .none
  | cons hab _ ih =>
    cases i with
    | zero => exact .some hab
    | succ i => exact ih i

theorem isSome_of_rel {α β : Type} {R : α → β → Prop} {a : Option α} {b : Option β} (h : Option.Rel R a b) :
    a.isSome = b.isSome := by
  cases h <;> rfl

theorem rel_refl {α : Type} (a : Option α) : Option.Rel Eq a a := by
  cases a with
  | none => exact .none
  | some a => exact .some rfl

theorem rel_imp {α β : Type} {R S : α → β → Prop} (hRS : ∀ a b, R a b → S a b) {a : Option α} {b : Option β}
    (h : Option.Rel R a b) : Option.Rel S a b := by
  cases h with
  | some hab => exact .some (hRS _ _ hab)
  | none => exact .none

/-! ## Values -/

/-- values that differ at most in functions, which are related -/
inductive Value.Rel (F : Function → Function → Prop) : Value → Value → Prop
  | number (d : Decimal) : Rel F (.number d) (.number d)
  | string (s : String) : Rel F (.string s) (.string s)
  | function {f g : Function} : F f g → Rel F (.function f) (.function g)
  | unit : Rel F .unit .unit

namespace Value.Rel

variable {F G : Function → Function → Prop} {a b : Value}

theorem mono (hFG : ∀ f g, F f g → G f g) (h : Rel F a b) : Rel G a b := by
  cases h with
  | number d => exact .number d
  | string s => exact .string s
  | function hf => exact .function (hFG _ _ hf)
  | unit => exact .unit

theorem refl (a : Value) : Rel Eq a a := by
  cases a with
  | number d => exact .number d
  | string s => exact .string s
  | function f => exact .function rfl
  | unit => exact .unit

theorem eq (h : Rel Eq a b) : a = b := by
  cases h with
  | function hf => rw [hf]
  | _ => rfl

theorem isTruthy_eq (h : Rel F a b) : a.isTruthy = b.isTruthy := by
  cases h <;> rfl

theorem ofBool (b : Bool) : Rel F (Value.ofBool b) (Value.ofBool b) := .number _

end Value.Rel

end Stone
