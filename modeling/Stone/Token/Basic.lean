/-
Tokens. A token is a lexeme on a line. Keywords, operators and punctuation are not told apart from names: all are
identifiers, and the grammar decides what they mean. Every line ends with a token of its own, and input that has run out
gives the end token again and again.
-/
import Stone.Decimal.Text

namespace Stone

/-- the lexical classes -/
inductive Lexeme where
  | number (value : Decimal)
  /-- a string literal, by its contents -/
  | string (text : String)
  /-- a word, an operator or a punctuation mark -/
  | identifier (text : String)
  | lineEnd
  | inputEnd
deriving DecidableEq

structure Token where
  line : Nat
  lexeme : Lexeme
deriving DecidableEq

namespace Token

def number (line : Nat) (value : Decimal) : Token := ⟨line, .number value⟩

def string (line : Nat) (text : String) : Token := ⟨line, .string text⟩

def identifier (line : Nat) (text : String) : Token := ⟨line, .identifier text⟩

def lineEnd (line : Nat) : Token := ⟨line, .lineEnd⟩

/-- the token that stands for the end of input, on no line -/
def inputEnd : Token := ⟨0, .inputEnd⟩

/-- the name that grammar literals use for line ends -/
def lineEndText : String := "\n"

/-- the text of a token: digits of a number, contents of a string -/
def text (t : Token) : String :=
  match t.lexeme with
  | .number d => d.text
  | .string s => s
  | .identifier s => s
  | .lineEnd => lineEndText
  | .inputEnd => ""

def isInputEnd (t : Token) : Bool := t.lexeme == .inputEnd

/-- is this the grammar literal `s`: an identifier spelled so, or a line end if `s` names one -/
def isLiteral (t : Token) (s : String) : Bool :=
  match t.lexeme with
  | .identifier u => u == s
  | .lineEnd => lineEndText == s
  | _ => false

/-- the token as messages show it -/
def display (t : Token) : String :=
  match t.lexeme with
  | .lineEnd => "\\n"
  | .inputEnd => "EOF"
  | _ => t.text

end Token

end Stone
