/-
The command line: its arguments, and what each command writes. `perform` answers from the bytes of the input, so only
reading and writing are left to the program itself.
-/
import Stone.Command

namespace Stone

/-! ## Arguments -/

inductive Command where
  | run (asJson : Bool)
  | repl
  | trees (format : String) (indented : Bool)
  | check
  | docs (category : Option String)
deriving DecidableEq

/-- a command with the level of the language and the file that it reads, if not the standard input -/
structure Invocation where
  level : Level
  command : Command
  file : Option String
deriving DecidableEq

/-- the options as they are found, with all other words in order -/
structure Arguments where
  level : Level := .closures
  format : Option String := none
  asJson : Bool := false
  indented : Bool := false
  words : List String := []

namespace Arguments

def levelOfName? : String → Option Level
  | "basic" => some .basic
  | "functions" => some .functions
  | "closures" => some .closures
  | _ => none

def withLevel (a : Arguments) (name : String) : Except String Arguments :=
  match levelOfName? name with
  | some level => .ok { a with level := level }
  | none => .error s!"invalid value '{name}' for '--level'"

def withWord (a : Arguments) (word : String) : Arguments := { a with words := a.words ++ [word] }

/-- the value in `name=value` -/
def valueOf? (name argument : String) : Option String :=
  if (name ++ "=").toList.isPrefixOf argument.toList then
    some (String.ofList (argument.toList.drop (name.length + 1)))
  else none

/-- the letters after a dash; true if the value of `-f` is still to come -/
def withLetters (a : Arguments) : List Char → Except String (Arguments × Bool)
  | [] => .ok (a, false)
  | 'p' :: more => withLetters { a with indented := true } more
  | ['f'] => .ok (a, true)
  | 'f' :: '=' :: value => .ok ({ a with format := some (String.ofList value) }, false)
  | 'f' :: value => .ok ({ a with format := some (String.ofList value) }, false)
  | c :: _ => .error s!"unexpected argument '-{c}'"

/-- goes through the arguments; `pending` is the option whose value comes next -/
def read (a : Arguments) (pending : Option String) : List String → Except String Arguments
  | [] =>
    match pending with
    | some name => .error s!"a value is required for '{name}'"
    | none => .ok a
  | word :: more =>
    match pending with
    | some "--level" => do read (← a.withLevel word) none more
    | some _ => read { a with format := some word } none more
    | none =>
      if word = "--" then .ok { a with words := a.words ++ more }
      else if word = "--level" ∨ word = "--format" then read a (some word) more
      else if word = "--json" then read { a with asJson := true } none more
      else if word = "--pretty" then read { a with indented := true } none more
      else
        match valueOf? "--level" word, valueOf? "--format" word with
        | some value, _ => do read (← a.withLevel value) none more
        | _, some value => read { a with format := some value } none more
        | none, none =>
          match word.toList with
          | '-' :: '-' :: _ => .error s!"unexpected argument '{word}'"
          | '-' :: c :: letters => do
            let r ← a.withLetters (c :: letters)
            read r.1 (if r.2 then some "--format" else none) more
          | _ => read (a.withWord word) none more

/-- the command that the words name, with the options it takes -/
def invocation (a : Arguments) : Except String Invocation := do
  let onlyFile (words : List String) : Except String (Option String) :=
    match words with
    | [] => .ok none
    | [file] => .ok (some file)
    | _ :: extra :: _ => .error s!"unexpected argument '{extra}'"
  let plain := a.format.isNone && !a.indented
  match a.words with
  | "run" :: words =>
    if plain then return ⟨a.level, .run a.asJson, ← onlyFile words⟩ else .error "unexpected option"
  | ["repl"] => if plain && !a.asJson then return ⟨a.level, .repl, none⟩ else .error "unexpected option"
  | "ast" :: words =>
    if a.asJson then .error "unexpected option"
    else return ⟨a.level, .trees (a.format.getD "tree") a.indented, ← onlyFile words⟩
  | "check" :: words =>
    if plain && !a.asJson then return ⟨a.level, .check, ← onlyFile words⟩ else .error "unexpected option"
  | "docs" :: words =>
    if plain && !a.asJson then return ⟨a.level, .docs (← onlyFile words), none⟩ else .error "unexpected option"
  | _ => .error "a command is required: run, repl, ast, check or docs"

end Arguments

/-- the invocation that these arguments ask for, or what is wrong with them -/
def Invocation.ofArguments (arguments : List String) : Except String Invocation := do
  (← Arguments.read {} none arguments).invocation

/-! ## Output -/

/-- what a command leaves behind -/
structure Outcome where
  code : Nat := 0
  stdout : String := ""
  stderr : String := ""
deriving DecidableEq

namespace Outcome

def failed (e : CommandError) : Outcome := { code := 1, stderr := e.message ++ "\n" }

/-- wrong arguments -/
def misused (reason : String) : Outcome := { code := 2, stderr := s!"error: {reason}\n" }

/-- the outcome of a command that gives a text -/
def ofText (finish : String → String) : Except CommandError String → Outcome
  | .ok text => { stdout := finish text }
  | .error e => failed e

/-- one outcome after the other, with the later code -/
def andThen (a b : Outcome) : Outcome := ⟨b.code, a.stdout ++ b.stdout, a.stderr ++ b.stderr⟩

end Outcome

/-- the reason given for bytes that are no text -/
def notText : String := "stream did not contain valid UTF-8"

/-- input bytes as text -/
def textOf (input : Except CommandError ByteArray) : Except CommandError String := do
  match String.fromUTF8? (← input) with
  | some text => .ok text
  | none => .error (.io notText)

/-! ## The interactive command -/

/-- the characters of a line without line end characters at its end -/
def chopLine (line : String) : String :=
  String.ofList (line.toList.reverse.dropWhile fun c => c = '\n' ∨ c = '\r').reverse

/-- what feeding a line writes -/
def Feed.outcome : Feed → Outcome
  | .incomplete => {}
  | .values vs => { stdout := String.join (vs.map fun v => s!"=> {v.display}\n") }
  | .failed (.raised e) => { stderr := e.message ++ "\n" }
  | .failed .endless => { stderr := CommandError.endless.message ++ "\n" }

/-- splits bytes after each line feed -/
def byteLines (bytes : ByteArray) : List ByteArray :=
  let step (b : UInt8) : List (List UInt8) → List (List UInt8)
    | [] => [[b]]
    | line :: more => if b = 10 then [b] :: line :: more else (b :: line) :: more
  (bytes.toList.foldr step []).map fun line => ⟨line.toArray⟩

/-- feeds lines until the input ends or a line is no text -/
def Repl.converse (r : Repl) : List ByteArray → Outcome
  | [] => {}
  | bytes :: more =>
    match String.fromUTF8? bytes with
    | none => .failed (.io notText)
    | some line =>
      let (answer, r') := r.feed (chopLine line)
      answer.outcome.andThen (r'.converse more)

/-! ## All commands -/

/-- what an invocation writes, given the bytes it reads -/
def Invocation.perform (i : Invocation) (input : Except CommandError ByteArray) : Outcome :=
  match i.command with
  | .run asJson =>
    .ofText (fun text => if text.isEmpty then "" else text ++ "\n") do
      runProgram i.level asJson (← textOf input)
  | .repl =>
    match input with
    | .error e => .failed e
    | .ok bytes => (Repl.new i.level).converse (byteLines bytes)
  | .trees format indented =>
    .ofText (· ++ "\n") do
      match TreeFormat.ofName? format with
      | none => .error (.unknownFormat format)
      | some f => showTrees i.level f indented (← textOf input)
  | .check =>
    match textOf input >>= checkProgram i.level with
    | .error e => .failed e
    | .ok (.clean statements) => { stdout := s!"ok: {statements} statement(s)\n" }
    | .ok (.unresolved references) =>
      { code := 1, stderr := String.join (references.map fun r => s!"unresolved name: {r.display}\n") }
  | .docs category => .ofText id (manualPage category)

end Stone
