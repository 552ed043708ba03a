/-
Scopes. A scope binds names to values and may lie inside an outer scope. All scopes of a run are kept in one heap,
because functions share the scope they were made in and see each other's changes. An outer scope is always older than
its inner ones, so following the outer links ends; a link that breaks this rule is not followed.
-/
import Stone.Value

namespace Stone

structure Scope where
  /-- one entry for each name -/
  bindings : List (String × Value) := []
  outer : Option ScopeId := none

namespace Scope

def get? (s : Scope) (name : String) : Option Value := s.bindings.lookup name

def binds (s : Scope) (name : String) : Bool := (s.get? name).isSome

/-- the bindings with one of them replaced, or added at the end -/
def putIn (name : String) (value : Value) : List (String × Value) → List (String × Value)
  | [] => [(name, value)]
  | (n, v) :: more => if n == name then (name, value) :: more else (n, v) :: putIn name value more

def put (s : Scope) (name : String) (value : Value) : Scope := { s with bindings := putIn name value s.bindings }

/-- the names bound here, sorted by code points -/
def names (s : Scope) : List String := (s.bindings.map Prod.fst).mergeSort fun a b => decide (a ≤ b)

end Scope

structure Heap where
  scopes : Array Scope
  /-- how many functions were made -/
  functionCount : Nat

namespace Heap

def empty : Heap := ⟨#[], 0⟩

/-- the scope at this place; places outside the heap hold a scope without bindings -/
def scope (h : Heap) (s : ScopeId) : Scope := h.scopes[s]?.getD {}

/-- a new scope inside `outer`, or an outermost one -/
def newScope (outer : Option ScopeId) (h : Heap) : ScopeId × Heap :=
  (h.scopes.size, { h with scopes := h.scopes.push { outer := outer } })

/-- the next outer scope, if it is an older one -/
def outer? (h : Heap) (s : ScopeId) : Option ScopeId := (h.scope s).outer.filter (· < s)

theorem outer?_lt {h : Heap} {s o : ScopeId} (ho : h.outer? s = some o) : o < s := by
  rw [outer?] at ho
  simpa using (Option.filter_eq_some_iff.1 ho).2

/-- a scope and all that it lies in, from the inside out -/
def chain (h : Heap) (s : ScopeId) : List ScopeId :=
  s :: match _ho : h.outer? s with
    | none => []
    | some o => h.chain o
termination_by s
decreasing_by exact outer?_lt _ho

/-- the scope itself and then the chain of the next outer one -/
theorem chain_step (h : Heap) (s : ScopeId) :
    h.chain s = s :: match h.outer? s with
      | none => []
      | some o => h.chain o := by
  rw [chain]
  split <;> simp_all

/-- the innermost scope on the chain that binds the name -/
def locate? (h : Heap) (s : ScopeId) (name : String) : Option ScopeId :=
  (h.chain s).find? fun u => (h.scope u).binds name

/-- a scope that binds the name hides the outer ones -/
theorem locate?_step (h : Heap) (s : ScopeId) (name : String) :
    h.locate? s name = if (h.scope s).binds name then some s else (h.outer? s).bind fun o => h.locate? o name := by
  unfold locate?
  rw [chain_step, List.find?_cons]
  cases (h.scope s).binds name with
  | true => rfl
  | false => cases h.outer? s <;> rfl

/-- the value that a name has in a scope: its own, or else the one that it has in the next outer scope -/
def get? (h : Heap) (s : ScopeId) (name : String) : Option Value :=
  match (h.scope s).get? name with
  | some v => some v
  | none =>
    match _ho : h.outer? s with
    | none => none
    | some o => h.get? o name
termination_by s
decreasing_by exact outer?_lt _ho

/-- a value of its own hides what the outer scopes hold -/
theorem get?_step (h : Heap) (s : ScopeId) (name : String) :
    h.get? s name = ((h.scope s).get? name).or ((h.outer? s).bind fun o => h.get? o name) := by
  rw [get?]
  cases (h.scope s).get? name with
  | some v => rfl
  | none =>
    simp only [Option.none_or]
    split
    · next ho => rw [ho, Option.bind_none]
    · next o ho => rw [ho, Option.bind_some]

/-- **Both ways outwards meet**: the value of a name is the one in the scope where the name is located. Outer scopes are
older, so the induction is on the age of the scope. -/
theorem get?_eq (h : Heap) (s : ScopeId) (name : String) :
    h.get? s name = (h.locate? s name).bind fun u => (h.scope u).get? name := by
  induction s using Nat.strongRecOn with
  | ind s ih =>
    rw [get?_step, locate?_step, Scope.binds]
    cases hv : (h.scope s).get? name with
    | some v => exact hv.symm
    | none =>
      cases ho : h.outer? s with
      | none => rfl
      | some o => exact ih o (outer?_lt ho)

/-- binds a name in this very scope -/
def putNew (h : Heap) (s : ScopeId) (name : String) (value : Value) : Heap :=
  { h with scopes := h.scopes.modify s fun scope => scope.put name value }

/-- gives a name a new value where it is bound, or binds it here if it is bound nowhere -/
def put (h : Heap) (s : ScopeId) (name : String) (value : Value) : Heap :=
  h.putNew ((h.locate? s name).getD s) name value

/-- the names bound in a scope, sorted -/
def names (h : Heap) (s : ScopeId) : List String := (h.scope s).names

/-- the sorted names of a scope and of each scope around it, for diagnosis -/
def summary (h : Heap) (s : ScopeId) : String :=
  let scopeText (u : ScopeId) : String := "[" ++ ", ".intercalate ((h.names u).map Text.quoted) ++ "]"
  "[" ++ ", ".intercalate ((h.chain s).map scopeText) ++ "]"

end Heap

end Stone
