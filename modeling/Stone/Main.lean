/-
The program: reads the arguments and the input, performs the command and writes what it answers. Sessions with a person
are answered line by line, everything else at once.
-/
import Stone.CommandLine

namespace Stone.Main

/-- a file system error in words -/
def reasonOf : IO.Error → String
  | .noFileOrDirectory _ _ _ => "No such file or directory (os error 2)"
  | .permissionDenied _ _ _ => "Permission denied (os error 13)"
  | e => toString e

/-- all bytes of a stream -/
partial def readAll (stream : IO.FS.Stream) (done : ByteArray) : IO ByteArray := do
  let bytes ← stream.read 65536
  if bytes.isEmpty then return done else readAll stream (done ++ bytes)

/-- the bytes that a command reads -/
def readInput (file : Option String) : IO (Except CommandError ByteArray) := do
  match file with
  | some path =>
    try return .ok (← IO.FS.readBinFile path)
    catch e => return .error (.io (reasonOf e))
  | none =>
    let stdin ← IO.getStdin
    if ← stdin.isTty then return .error .noInput
    else return .ok (← readAll stdin .empty)

def write (o : Outcome) : IO Unit := do
  (← IO.getStdout).putStr o.stdout
  (← IO.getStdout).flush
  (← IO.getStderr).putStr o.stderr

/-- a session on a terminal -/
partial def converse (r : Repl) : IO Unit := do
  (← IO.getStdout).putStr r.prompt
  (← IO.getStdout).flush
  let line ← (← IO.getStdin).getLine
  if line.isEmpty then return ()
  let (answer, r') := r.feed (chopLine line)
  write answer.outcome
  converse r'

def run (i : Invocation) : IO Outcome := do
  match i.command with
  | .docs _ => return i.perform (.ok .empty)
  | .repl =>
    if ← (← IO.getStdin).isTty then
      converse (Repl.new i.level)
      return {}
    else return i.perform (← readInput none)
  | _ => return i.perform (← readInput i.file)

/-- performs what the arguments ask for and answers the exit code -/
def start (arguments : List String) : IO UInt32 := do
  let outcome ← match Invocation.ofArguments arguments with
    | .error reason => pure (Outcome.misused reason)
    | .ok i => run i
  write outcome
  return outcome.code.toUInt32

end Stone.Main

def main (arguments : List String) : IO UInt32 := Stone.Main.start arguments
