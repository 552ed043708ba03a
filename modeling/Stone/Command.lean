/-
What the commands do with a source text: run it, show its trees, check its names. Each answers a text or the reason why
there is none.
-/
import Stone.Json.Render
import Stone.Manual
import Stone.Repl
import Stone.Symbols

namespace Stone

inductive CommandError where
  | parse (error : ParseError)
  | eval (error : EvalError)
  /-- input that cannot be read -/
  | io (reason : String)
  /-- no input at all -/
  | noInput
  | unknownFormat (name : String)
  | unknownCategory (name : String)
  /-- work without end -/
  | endless
deriving DecidableEq

namespace CommandError

def message : CommandError → String
  | parse e => s!"Parse error: {e.message}"
  | eval e => s!"Evaluation error: {e.message}"
  | io reason => s!"IO error: {reason}"
  | noInput => "No input provided. Pass a file or pipe Stone source to stdin."
  | unknownFormat name => s!"Unknown format: '{name}'. Use tree, source or json."
  | unknownCategory name => s!"Unknown category: '{name}'\nRun 'stone docs' to see available categories."
  | endless => "Endless work"

def ofParse : Stop ParseError → CommandError
  | .raised e => parse e
  | .endless => endless

def ofFault : Stop Fault → CommandError
  | .raised (.parse e) => parse e
  | .raised (.eval e) => eval e
  | .endless => endless

end CommandError

/-- values one a line, or as a JSON array -/
def renderValues (asJson : Bool) (vs : List Value) : String :=
  if asJson then (Json.array (vs.map Value.toJson)).compact else "\n".intercalate (vs.map Value.display)

/-- runs a program and renders the values of its statements -/
def runProgram (level : Level) (asJson : Bool) (source : String) : Except CommandError String :=
  match ((Session.new level).evalSource source).1 with
  | .error e => .error (.ofFault e)
  | .ok vs => .ok (renderValues asJson vs)

/-- how trees are shown -/
inductive TreeFormat where
  | parenthesised
  | source
  | json
deriving DecidableEq

namespace TreeFormat

/-- the format with this name, in any case -/
def ofName? (name : String) : Option TreeFormat :=
  match name.toLower with
  | "tree" | "sexp" => some parenthesised
  | "source" | "src" => some source
  | "json" => some json
  | _ => none

/-- statements in a format -/
def render (f : TreeFormat) (indented : Bool) (statements : List Node) : String :=
  match f with
  | parenthesised => "\n".intercalate (statements.map Node.display)
  | source => Node.programSource statements
  | json => (Json.array (statements.map Node.toJson)).text (if indented then .indented else .compact)

end TreeFormat

/-- the trees of a program, without running it -/
def showTrees (level : Level) (f : TreeFormat) (indented : Bool) (source : String) : Except CommandError String :=
  match parseProgram level source with
  | .error e => .error (.ofParse e)
  | .ok statements => .ok (f.render indented statements)

/-- what a check finds -/
inductive CheckResult where
  /-- every name is bound where it is read; with the number of statements -/
  | clean (statements : Nat)
  | unresolved (references : List Reference)
deriving DecidableEq

/-- the names of a program after all its statements -/
def Symbols.ofProgram (statements : List Node) : Symbols := Symbols.lookupAll statements .empty

/-- looks for names that are read before they are bound, without running the program -/
def checkProgram (level : Level) (source : String) : Except CommandError CheckResult :=
  match parseProgram level source with
  | .error e => .error (.ofParse e)
  | .ok statements =>
    match (Symbols.ofProgram statements).unresolved with
    | [] => .ok (.clean statements.length)
    | references => .ok (.unresolved references)

/-- the page of the manual with this name, or the overview -/
def manualPage : Option String → Except CommandError String
  | none => .ok Manual.overview
  | some name =>
    match Manual.Category.ofName? name with
    | some c => .ok c.text
    | none => .error (.unknownCategory name)

end Stone
