/-
Names before the run. Walking a tree records which names a scope binds and which it reads. A read of a name that is not
bound yet is open at once. The body of a function runs later: what it reads and does not bind itself is handed to the
scope around it, and stays open only if that scope never binds it.
-/
import Stone.Node.Basic
import Stone.Operator

namespace Stone

/-- a read of a name -/
structure Reference where
  name : String
  line : Option Nat
deriving DecidableEq

def Reference.display (r : Reference) : String := r.name ++ placeText r.line

/-- the names of one scope -/
structure Symbols where
  bound : List String
  /-- reads of names that were not bound at the time -/
  free : List Reference
  /-- reads handed on by functions -/
  deferred : List Reference
deriving DecidableEq

namespace Symbols

def empty : Symbols := ⟨[], [], []⟩

def isBound (s : Symbols) (name : String) : Bool := s.bound.contains name

def define (s : Symbols) (name : String) : Symbols :=
  if s.isBound name then s else { s with bound := name :: s.bound }

/-- a read of a name -/
def reference (s : Symbols) (name : String) (line : Option Nat) : Symbols :=
  if s.isBound name then s else { s with free := s.free ++ [⟨name, line⟩] }

/-- the names bound here, sorted by code points -/
def names (s : Symbols) : List String := s.bound.mergeSort fun a b => decide (a ≤ b)

/-- the reads that this scope does not answer -/
def unresolved (s : Symbols) : List Reference := s.free ++ s.deferred.filter fun r => !s.isBound r.name

/-- takes over what a function inside this scope leaves open -/
def defer (s inner : Symbols) : Symbols := { s with deferred := s.deferred ++ inner.unresolved }

/-- the scope of a function with these parameters -/
def ofParameters (params : Node) : Symbols :=
  (params.children.filterMap Node.token?).foldl (fun s t => s.define t.text) empty

/-- the name that an assignment with this left side and this mark binds -/
def assigned? (target mark : Node) : Option String :=
  match mark.token? with
  | some t => if Operator.ofSymbol? t.text = some .assign then target.name? else none
  | none => none

/-- binds the text of a leaf -/
def defineLeaf (s : Symbols) (n : Node) : Symbols :=
  match n.token? with
  | some t => s.define t.text
  | none => s

mutual

/-- records the names that a tree binds and reads. An assignment reads its right side first; a definition binds its name
before its body is looked at. -/
def lookup : Node → Symbols → Symbols
  | .leaf .name t, s => s.reference t.text (some t.line)
  | .leaf _ _, s => s
  | .list .binary [target, mark], s =>
    match assigned? target mark with
    | some name => s.define name
    | none => lookup mark (lookup target s)
  | .list .binary (target :: mark :: value :: more), s =>
    match assigned? target mark with
    | some name => (lookup value s).define name
    | none => lookupAll more (lookup value (lookup mark (lookup target s)))
  | .list .definition [], s => s
  | .list .definition (name :: params :: body :: _), s => (s.defineLeaf name).defer (lookup body (ofParameters params))
  | .list .definition (name :: _), s => s.defineLeaf name
  | .list .closure (params :: body :: _), s => s.defer (lookup body (ofParameters params))
  | .list .closure _, s => s
  | .list _ children, s => lookupAll children s

def lookupAll : List Node → Symbols → Symbols
  | [], s => s
  | n :: more, s => lookupAll more (lookup n s)

end

end Symbols

end Stone
