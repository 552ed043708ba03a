/-
The lines of a text. A line ends at `\n`, and one `\r` just before that end goes with it; a last line without an end
keeps all its characters, and a text that ends with a line end opens no further line.
-/

namespace Stone.Text

/-- the pieces between line ends, at least one: the first of them and the others -/
def pieces (cs : List Char) : List Char × List (List Char) :=
  cs.foldr (fun c p => if c = '\n' then ([], p.1 :: p.2) else (c :: p.1, p.2)) ([], [])

/-- a line without the `\r` that belongs to its end -/
def withoutReturn (line : List Char) : List Char :=
  if line.getLast? = some '\r' then line.dropLast else line

/-- the lines of these pieces: each but the last had an end, and an empty last one is no line -/
def ofPieces (piece : List Char) : List (List Char) → List (List Char)
  | [] => if piece = [] then [] else [piece]
  | next :: more => withoutReturn piece :: ofPieces next more

/-- the lines of a text -/
def lines (text : List Char) : List (List Char) := ofPieces (pieces text).1 (pieces text).2

end Stone.Text
