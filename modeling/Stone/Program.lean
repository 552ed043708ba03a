/-
Programs: the statements of a source text. `Reading` actions read one statement or expression or all that is left of a
stream; the functions on source texts start a stream of their own.
-/
import Stone.Grammar.Language
import Stone.Node.Source

namespace Stone

namespace Language

open Parsing

/-- is the input at its end -/
def atEnd : Parsing Bool := return (← peek).isInputEnd

/-- statements up to the end of input without the empty ones, at most as many as the budget says -/
def parseStatements (l : Language) : Nat → Parsing (List Node)
  | 0 => throw .endless
  | budget + 1 => do
    if ← atEnd then return []
    let statement ← l.parseStatement
    let more ← parseStatements l budget
    return if statement.is .empty then more else statement :: more

/-- all statements that are left; each takes at least one token -/
def parseProgram (l : Language) : Parsing (List Node) := do
  l.parseStatements ((← get).size + 1)

/-- takes line ends up to the end of input -/
def expectEnd : Nat → Parsing Unit
  | 0 => throw .endless
  | budget + 1 => do
    let t ← read
    match t.lexeme with
    | .lineEnd => expectEnd budget
    | .inputEnd => return ()
    | _ => fail (.unexpected t none)

/-- an expression that is all that is left -/
def parseWholeExpression (l : Language) : Parsing Node := do
  let n ← l.grammar.parse l.rules.expression
  expectEnd ((← get).size + 1)
  return n

end Language

/-- the result of a parsing action on a source text -/
def Parsing.onSource {α : Type} (p : Parsing α) (source : String) : Except (Stop ParseError) α :=
  match p.run (TokenStream.ofSource source) with
  | .ok a _ => .ok a
  | .error e _ => .error e

/-- the statements of a source text -/
def parseProgram (level : Level) (source : String) : Except (Stop ParseError) (List Node) :=
  (Language.ofLevel level).parseProgram.onSource source

/-- the expression that a source text consists of -/
def parseExpression (level : Level) (source : String) : Except (Stop ParseError) Node :=
  (Language.ofLevel level).parseWholeExpression.onSource source

end Stone
