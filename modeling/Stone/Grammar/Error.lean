/-
Why source does not parse. The messages name the token, or say that the input ended; a hint names the literal that was
wanted.
-/
import Stone.Text.Quoted
import Stone.Token.Line

namespace Stone

inductive ParseError where
  /-- a token that cannot stand where it stands, and the first literal that could, if literals were wanted -/
  | unexpected (token : Token) (expected : Option String)
  /-- rules nested beyond the limit -/
  | tooDeep (line : Nat)
  | scan (error : ScanError)
deriving DecidableEq

namespace ParseError

/-- did the input end inside a statement -/
def isUnexpectedEnd : ParseError → Bool
  | unexpected token _ => token.isInputEnd
  | _ => false

def line? : ParseError → Option Nat
  | unexpected token _ => if token.isInputEnd then none else some token.line
  | tooDeep line => some line
  | scan e => some e.line

/-- the wanted literal as messages show it -/
def hint? : ParseError → Option String
  | unexpected _ (some text) => some (Text.asciiQuoted text)
  | _ => none

def message : ParseError → String
  | e@(unexpected token _) =>
    let near := if token.isInputEnd then "the last line" else s!"\"{token.display}\" at line {token.line}"
    let wanted := match e.hint? with
      | some hint => s!", expected {hint}"
      | none => ""
    s!"syntax error around {near}{wanted}"
  | tooDeep line => s!"nesting too deep at line {line}"
  | scan e => e.message

end ParseError

end Stone
