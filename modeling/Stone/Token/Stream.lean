/-
Streams of tokens, read with any lookahead. A stream holds the tokens that wait and the lines still to come. Looking `k`
tokens ahead takes in lines until more than `k` tokens wait. A line with an error is dropped by the call that meets it,
which answers that error; later calls go on with the next line. Past the last line every call answers the end token.
-/
import Stone.Text.Lines
import Stone.Token.Line

namespace Stone

structure TokenStream where
  waiting : List Token
  /-- the lines to come, scanned -/
  lines : List (Except ScanError (List Token))

namespace TokenStream

/-- the lines of a text, scanned, with numbers from `first` on -/
def scanAll (first : Nat) : List (List Char) → List (Except ScanError (List Token))
  | [] => []
  | cs :: more => scanLine first cs :: scanAll (first + 1) more

/-- the tokens of a source text -/
def ofSource (source : String) : TokenStream := ⟨[], scanAll 1 (Text.lines source.toList)⟩

/-- these tokens and then the end of input -/
def ofTokens (tokens : List Token) : TokenStream := ⟨tokens, []⟩

/-- the token `k` places ahead of the first one waiting -/
def lookAhead (k : Nat) (waiting : List Token) :
    List (Except ScanError (List Token)) → Except ScanError Token × TokenStream
  | [] => (.ok (waiting[k]?.getD Token.inputEnd), ⟨waiting, []⟩)
  | line :: more =>
    match waiting[k]? with
    | some t => (.ok t, ⟨waiting, line :: more⟩)
    | none =>
      match line with
      | .ok tokens => lookAhead k (waiting ++ tokens) more
      | .error e => (.error e, ⟨waiting, more⟩)

/-- looks `k` tokens ahead and takes none -/
def peek (k : Nat) (s : TokenStream) : Except ScanError Token × TokenStream := lookAhead k s.waiting s.lines

/-- takes the next token -/
def read (s : TokenStream) : Except ScanError Token × TokenStream :=
  match s.peek 0 with
  | (.ok t, s') => (.ok t, ⟨s'.waiting.tail, s'.lines⟩)
  | (.error e, s') => (.error e, s')

/-- the number of tokens in a line, and one for the line itself -/
def lineSize : Except ScanError (List Token) → Nat
  | .ok tokens => tokens.length + 1
  | .error _ => 1

/-- a bound on the calls that can still change the stream: every token read and every line taken in makes it smaller -/
def size (s : TokenStream) : Nat := s.waiting.length + s.lines.foldr (fun line rest => lineSize line + rest) 0

end TokenStream

end Stone
