/-
Sessions fed with lines. Lines wait until together they are complete statements; then all of them run. Input that cannot
become complete any more is dropped with its error, and so is input that fails while it runs.
-/
import Stone.Session

namespace Stone

structure Repl where
  session : Session
  /-- the lines that are no complete statement yet -/
  pending : String

/-- what became of a line -/
inductive Feed where
  /-- more lines are needed -/
  | incomplete
  /-- the statements were complete and gave these values -/
  | values (values : List Value)
  | failed (stop : Stop Fault)

namespace Repl

def new (level : Level) : Repl := ⟨.new level, ""⟩

/-- what asks for the next line -/
def prompt (r : Repl) : String := if r.pending.isEmpty then "> " else "| "

/-- takes a line -/
def feed (r : Repl) (line : String) : Feed × Repl :=
  let text := r.pending ++ line ++ "\n"
  match parseProgram r.session.level text with
  | .ok statements =>
    match r.session.evalNodes statements with
    | (.ok vs, session) => (.values vs, ⟨session, ""⟩)
    | (.error e, session) => (.failed e, ⟨session, ""⟩)
  | .error (.raised e) =>
    if e.isUnexpectedEnd then (.incomplete, { r with pending := text })
    else (.failed (.raised (.parse e)), { r with pending := "" })
  | .error .endless => (.failed .endless, { r with pending := "" })

/-- drops the lines that wait -/
def cancel (r : Repl) : Repl := { r with pending := "" }

end Repl

end Stone
