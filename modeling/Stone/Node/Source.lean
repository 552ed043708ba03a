/-
Source text of trees. Comments and layout are gone and every binary expression stands in parentheses, so the text reads
back without knowing how tightly operators bind. Operands of a sign and of calls are put in parentheses unless they are
leaves, binary expressions or operands with calls themselves.
-/
import Stone.Node.Basic
import Stone.Token.Literal

namespace Stone.Node

/-- may the tree stand as an operand without parentheses of its own -/
def isBareOperand : Node → Bool
  | leaf _ _ => true
  | list kind _ => kind == .binary || kind == .primary

/-- operand text, in parentheses if need be -/
def wrapOperand (n : Node) (text : List Char) : List Char := if n.isBareOperand then text else '(' :: text ++ [')']

/-- `if`, condition and block, and `else` with the third child -/
def conditionalText (parts : List (List Char)) : List Char :=
  "if ".toList ++ [' '].intercalate (parts.take 2) ++
    match parts[2]? with
    | some other => " else ".toList ++ other
    | none => []

/-- `def`, name and parameters, then each further child after a space -/
def definitionText (parts : List (List Char)) : List Char :=
  "def ".toList ++ (parts.take 2).flatten ++ (parts.drop 2).flatMap fun body => ' ' :: body

mutual

/-- the source text of a tree -/
def sourceChars : Node → List Char
  | leaf .string t => Literal.write t.text.toList
  | leaf _ t => t.text.toList
  | list .binary children => '(' :: [' '].intercalate (sourceOfAll children) ++ [')']
  | list .negative [] => ['-']
  | list .negative (operand :: _) => '-' :: operand.wrapOperand operand.sourceChars
  | list .primary [] => []
  | list .primary (operand :: calls) => operand.wrapOperand operand.sourceChars ++ (sourceOfAll calls).flatten
  | list .arguments children => '(' :: ", ".toList.intercalate (sourceOfAll children) ++ [')']
  | list .parameters children => '(' :: ", ".toList.intercalate (sourceOfAll children) ++ [')']
  | list .block [] => ['\x7b', '\x7d']
  | list .block (first :: more) =>
    ['\x7b', ' '] ++ "; ".toList.intercalate (sourceOfStatements (first :: more)) ++ [' ', '\x7d']
  | list .conditional children => conditionalText (sourceOfAll children)
  | list .loop children => "while ".toList ++ [' '].intercalate (sourceOfAll children)
  | list .definition children => definitionText (sourceOfAll children)
  | list .closure children => "fun ".toList ++ [' '].intercalate (sourceOfAll children)
  | list .empty _ => []
  | list .plain children => [' '].intercalate (sourceOfAll children)

def sourceOfAll : List Node → List (List Char)
  | [] => []
  | n :: more => n.sourceChars :: sourceOfAll more

/-- the texts of all statements but the empty ones -/
def sourceOfStatements : List Node → List (List Char)
  | [] => []
  | n :: more => if n.is .empty then sourceOfStatements more else n.sourceChars :: sourceOfStatements more

end

/-- the source text of a tree -/
def source (n : Node) : String := String.ofList n.sourceChars

/-- the source text of a program: one statement a line, without the empty ones -/
def programSource (statements : List Node) : String :=
  String.ofList (['\n'].intercalate (sourceOfStatements statements))

end Stone.Node
