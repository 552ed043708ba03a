/-
The grammar of the language at its three levels.

  primary   : [ "fun" parameters block ]
            | ( "(" expr ")" | NUMBER | IDENTIFIER | STRING ) { call }
  factor    : "-" primary | primary
  expr      : factor { OPERATOR factor }
  block     : "{" [ statement ] { (";" | EOL) [ statement ] } "}"
  simple    : expr [ arguments ]
  statement : "if" expr block [ "else" block ] | "while" expr block | simple
  program   : [ definition | statement ] (";" | EOL)
  parameters: "(" [ param { "," param } ] ")"
  definition: "def" IDENTIFIER parameters block
  arguments : expr { "," expr }
  call      : "(" [ arguments ] ")"

The basic level has no definitions, calls and closures; the middle level has no closures. There are no keywords: an
identifier is any word or mark but the separators, the closing brace and, with calls, the closing parenthesis.
-/
import Stone.Grammar.Parse

namespace Stone

/-- which features the grammar takes -/
inductive Level where
  /-- expressions, blocks, `if` and `while` -/
  | basic
  /-- and definitions and calls -/
  | functions
  /-- and closures -/
  | closures
deriving DecidableEq

namespace Level

instance : Inhabited Level := ⟨closures⟩

def hasFunctions : Level → Bool
  | basic => false
  | _ => true

def hasClosures : Level → Bool
  | closures => true
  | _ => false

end Level

/-- the rules of a language in their table, by the places where they are entered -/
structure LanguageRules where
  program : RuleId
  statement : RuleId
  expression : RuleId
  primary : RuleId
deriving DecidableEq

namespace Grammar

/-- a literal that leaves no trace in the tree -/
def skip (text : String) : Element := .literal [text] false

/-- the end of a statement -/
def separator : Element := .literal [";", Token.lineEndText] false

/-- identifiers with these texts are not names -/
def reservedTexts (level : Level) : List String :=
  [";", "\x7d", Token.lineEndText] ++ if level.hasFunctions then [")"] else []

/-- enters the rules of a level into a table -/
def addLanguage (level : Level) : StateM Grammar LanguageRules := do
  let word (kind : LeafKind) : Element := .token (.identifier (reservedTexts level)) kind
  let expression ← add (Rule.named "expr")
  let primary ← add (Rule.ofKind .primary)
  let statement ← add (Rule.named "statement")
  let following ← add { elements := [separator, .optional statement] }
  let block ← add
    { elements := [skip "\x7b", .optional statement, .many following, skip "\x7d"], build := .node .block }
  -- functions
  let param ← add { name := some "param", elements := [word .name] }
  let moreParams ← add { elements := [skip ",", .rule param] }
  let params ← add { elements := [.rule param, .many moreParams], build := .node .parameters }
  let parameters ← add { name := some "param_list", elements := [skip "(", ← orEmpty params, skip ")"] }
  let definition ← add
    { elements := [skip "def", word .mark, .rule parameters, .rule block], build := .node .definition }
  let moreArguments ← add { elements := [skip ",", .rule expression] }
  let arguments ← add { elements := [.rule expression, .many moreArguments], build := .node .arguments }
  let call ← add { name := some "postfix", elements := [skip "(", ← orEmpty arguments, skip ")"] }
  let closure ← add { elements := [skip "fun", .rule parameters, .rule block], build := .node .closure }
  -- expressions
  let grouped ← add { elements := [skip "(", .rule expression, skip ")"] }
  let number ← add { elements := [.token .number .number] }
  let name ← add { elements := [word .name] }
  let string ← add { elements := [.token .string .string] }
  let closures := if level.hasClosures then [closure] else []
  extend primary [.choice (closures ++ [grouped, number, name, string])]
  if level.hasFunctions then extend primary [.many call]
  let negative ← add { elements := [skip "-", .rule primary], build := .node .negative }
  let factor ← add { name := some "factor", elements := [.choice [negative, primary]] }
  extend expression [.operators factor .standard .binary]
  -- statements
  let otherwise ← add { elements := [skip "else", .rule block] }
  let conditional ← add
    { elements := [skip "if", .rule expression, .rule block, .optional otherwise], build := .node .conditional }
  let loop ← add { elements := [skip "while", .rule expression, .rule block], build := .node .loop }
  let simple ← add { elements := [.rule expression], build := .node .primary }
  if level.hasFunctions then extend simple [.optional arguments]
  extend statement [.choice [conditional, loop, simple]]
  let nothing ← add (Rule.ofKind .empty)
  let definitions := if level.hasFunctions then [definition] else []
  let program ← add
    { name := some "program", elements := [.choice (definitions ++ [statement, nothing]), separator] }
  return { program, statement, expression, primary }

end Grammar

/-! ## The language by itself -/

/-- a table with nothing but the rules of a language -/
structure Language where
  grammar : Grammar
  rules : LanguageRules
deriving DecidableEq

namespace Language

def build (level : Level) : Language :=
  let r := (Grammar.addLanguage level).run .empty
  ⟨r.2, r.1⟩

def basic : Language := build .basic

def functions : Language := build .functions

def closures : Language := build .closures

def ofLevel : Level → Language
  | .basic => basic
  | .functions => functions
  | .closures => closures

/-- parses a top-level statement with its end; an empty one is an empty statement -/
def parseStatement (l : Language) : Parsing Node := l.grammar.parse l.rules.program

end Language

end Stone
