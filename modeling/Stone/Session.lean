/-
Sessions: programs that run one after the other over the same global scope. The statements of a source text run as they
are read, so what comes before an error keeps its effect.
-/
import Stone.Evaluate
import Stone.Program

namespace Stone

/-- an error of a program, when read or when run -/
inductive Fault where
  | parse (error : ParseError)
  | eval (error : EvalError)
deriving DecidableEq

namespace Fault

def message : Fault → String
  | parse e => e.message
  | eval e => e.message

def line? : Fault → Option Nat
  | parse e => e.line?
  | eval e => e.line?

/-- did the input end inside a statement -/
def isUnexpectedEnd : Fault → Bool
  | parse e => e.isUnexpectedEnd
  | eval _ => false

end Fault

/-- more rounds than any loop can make in a lifetime -/
def maxRounds : Nat := 4611686018427387904

structure Session where
  level : Level
  heap : Heap
  /-- the global scope -/
  globals : ScopeId

namespace Session

/-- a session in a new outermost scope of a heap -/
def onHeap (level : Level) (heap : Heap) : Session :=
  let r := heap.newScope none
  ⟨level, r.2, r.1⟩

def new (level : Level) : Session := onHeap level .empty

/-- evaluates a tree in the global scope -/
def evalNode (s : Session) (n : Node) : Except (Stop Fault) Value × Session :=
  match (evaluate maxRounds maxEvaluation n s.globals).run s.heap with
  | .ok v heap => (.ok v, { s with heap := heap })
  | .error e heap => (.error (e.map .eval), { s with heap := heap })

/-- evaluates statements in order up to the first error -/
def evalNodes (s : Session) : List Node → Except (Stop Fault) (List Value) × Session
  | [] => (.ok [], s)
  | n :: more =>
    match s.evalNode n with
    | (.error e, s') => (.error e, s')
    | (.ok v, s') =>
      match s'.evalNodes more with
      | (.error e, s'') => (.error e, s'')
      | (.ok vs, s'') => (.ok (v :: vs), s'')

/-- reads and runs statements from a stream; `done` holds the values so far, the last one first -/
def runStream (l : Language) (s : Session) (done : List Value) :
    Nat → TokenStream → Except (Stop Fault) (List Value) × Session
  | 0, _ => (.error .endless, s)
  | budget + 1, stream =>
    match Language.atEnd.run stream with
    | .error e _ => (.error (e.map .parse), s)
    | .ok true _ => (.ok done.reverse, s)
    | .ok false stream =>
      match l.parseStatement.run stream with
      | .error e _ => (.error (e.map .parse), s)
      | .ok n stream =>
        if n.is .empty then runStream l s done budget stream
        else
          match s.evalNode n with
          | (.error e, s') => (.error e, s')
          | (.ok v, s') => runStream l s' (v :: done) budget stream

/-- reads and runs a source text; the values of its statements, without the empty ones -/
def evalSource (s : Session) (source : String) : Except (Stop Fault) (List Value) × Session :=
  let stream := TokenStream.ofSource source
  s.runStream (.ofLevel s.level) [] (stream.size + 1) stream

end Session

end Stone
