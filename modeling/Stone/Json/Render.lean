/-
Values and trees as JSON. Whole numbers that fit a signed 64-bit integer are integers and all other numbers doubles,
functions are their text, the unit is null. A tree is an object with its kind; leaves add line and text, lists their
children.
-/
import Stone.Decimal.Double
import Stone.Json.Basic
import Stone.Value

namespace Stone

/-- does a whole number fit a signed 64-bit integer -/
def fitsInt64 (i : Int) : Bool := -9223372036854775808 ≤ i && i ≤ 9223372036854775807

def Decimal.toJson (d : Decimal) : Json :=
  let n := d.normalize
  if n.scale = 0 ∧ fitsInt64 n.numerator then .integer n.numerator else .double n.toDouble

def Value.toJson : Value → Json
  | .number d => d.toJson
  | .string s => .string s
  | .function f => .string f.display
  | .unit => .null

mutual

def Node.toJson : Node → Json
  | .leaf kind t =>
    .object [("kind", .string kind.label), ("line", .integer t.line), ("text", .string t.text)]
  | .list kind children => .object [("children", .array (Node.allToJson children)), ("kind", .string kind.label)]

def Node.allToJson : List Node → List Json
  | [] => []
  | n :: more => n.toJson :: Node.allToJson more

end

end Stone
