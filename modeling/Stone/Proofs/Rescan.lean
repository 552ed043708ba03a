/-
Tokens written and scanned again. The tokens of a line are written with blanks between them, strings as literals and all
others as their texts. What is written is a line, and it has the same tokens. The tokens of a line are written without
regard to what stood between them, and the only danger is a quote that stands alone: it is a mark because no other quote
comes after it, and none comes after it when it is written (`Consists.quoteSafe`).

- `scanLine_rescans`: written tokens are the tokens of what is written, and so is the literal of every text.
-/
import Stone.Proofs.Pieces
import Stone.Proofs.Lexemes

namespace Stone

open Text

/-! ## Tokens as text -/

namespace Token

/-- a string as a literal, any other token as its text -/
def writtenChars (t : Token) : List Char :=
  match t.lexeme with
  | .string s => Literal.write s.toList
  | _ => t.text.toList

end Token

/-- tokens with blanks between them -/
def writtenLine (ts : List Token) : List Char := [' '].intercalate (ts.map Token.writtenChars)

/-- a token as its text scans as itself -/
theorem Token.Scanned.writes {t : Token} (h : t.Scanned) (he : t.lexeme ≠ .lineEnd) :
    Writes t.writtenChars [t.lexeme] := by
  obtain ⟨line, x⟩ := t
  cases x with
  | number d => exact number_writes h.1 h.2
  | string s => exact string_writes s
  | identifier s => exact identifier_writes h
  | lineEnd => exact absurd rfl he
  | inputEnd => exact h.elim

/-- so do tokens with blanks between them, if no quotes come after a lone quote -/
theorem writtenLine_writes {ts : List Token} (h : ∀ t ∈ ts, Writes t.writtenChars [t.lexeme]) :
    Writes (writtenLine ts) (ts.map Token.lexeme) := by
  induction ts with
  | nil => exact .nil
  | cons t more ih =>
    obtain ⟨ht, hmore⟩ := List.forall_mem_cons.1 h
    cases more with
    | nil => simpa [writtenLine] using ht
    | cons u more =>
      have hall := ht.spaced (ih hmore)
      simpa [writtenLine, List.intercalate_cons_cons] using hall

/-! ## Quotes -/

/-- a lexeme that is written with quotes has one in the line -/
theorem Piece.quote_mem {p : Piece} {x : Lexeme} (hp : p.lexeme? = some x) (hx : x.isQuoted = true) : '"' ∈ p.text := by
  cases p with
  | quoted enclosed => exact List.mem_cons_self
  | spelled text =>
    cases hp
    have hs : String.ofList text = "\"" := by simpa [Lexeme.isQuoted] using hx
    have htext : text = ['"'] := by simpa using congrArg String.toList hs
    simp [Piece.text, htext]
  | digits run =>
    obtain ⟨d, -, rfl⟩ := Option.map_eq_some_iff.1 hp
    cases hx
  | _ => cases hp

/-- no piece spells a line end -/
theorem Piece.lexeme?_ne_lineEnd (p : Piece) : p.lexeme? ≠ some .lineEnd := by
  cases p <;> simp [Piece.lexeme?]

/-- nothing closes a lone quote -/
theorem Heads.loneQuote_rest {p : Piece} {cs rest : List Char} (h : Heads p cs rest)
    (hp : p.lexeme? = some loneQuote) : '"' ∉ rest := by
  have hspelled : p = .spelled ['"'] := by
    cases p with
    | spelled text =>
      have hs : String.ofList text = "\"" := by simpa [Piece.lexeme?, loneQuote] using hp
      have htext : text = ['"'] := by simpa using congrArg String.toList hs
      rw [htext]
    | digits run =>
      obtain ⟨d, -, hd⟩ := Option.map_eq_some_iff.1 hp
      cases hd
    | _ => cases hp
  subst hspelled
  cases h with
  | word hc _ _ => exact absurd hc (by decide)
  | single _ _ _ _ hquote => exact hquote rfl

/-- **No quotes come after a lone quote** among the tokens of a line. -/
theorem Consists.quoteSafe {cs comment : List Char} {ps : List Piece} (h : Consists cs ps comment) :
    QuoteSafe (ps.filterMap Piece.lexeme?) := by
  induction h with
  | done => exact .nil
  | comment => exact .nil
  | @piece p _ rest comment ps hp hrest ih =>
    rw [List.filterMap_cons]
    cases hx : p.lexeme? with
    | none => exact ih
    | some x =>
      refine List.pairwise_cons.2 ⟨fun y hy hlone => ?_, ih⟩
      obtain ⟨q, hq, hqy⟩ := List.mem_filterMap.1 hy
      refine Bool.eq_false_iff.2 fun hquoted => ?_
      have hmem : '"' ∈ Piece.texts ps := List.mem_flatMap.2 ⟨q, hq, Piece.quote_mem hqy hquoted⟩
      apply hp.loneQuote_rest (hlone ▸ hx)
      rw [← hrest.texts_append]
      exact List.mem_append_left _ hmem

/-! ## Lines -/

/-- the tokens of a line, without its end, are tokens that scan as themselves, and no quotes come after a lone quote -/
theorem scanLine_legible {line : Nat} {cs : List Char} {ts : List Token} (h : scanLine line cs = .ok ts) :
    ∃ ls, ts = tokensOn line ls ++ [Token.lineEnd line] ∧ QuoteSafe ls ∧
      ∀ t ∈ tokensOn line ls, Writes t.writtenChars [t.lexeme] := by
  obtain ⟨ps, comment, hps⟩ := consists_exists cs
  obtain ⟨-, htokens⟩ := hps.scanLine_ok h
  refine ⟨ps.filterMap Piece.lexeme?, htokens, hps.quoteSafe, fun t ht => ?_⟩
  have hmem : t ∈ ts := htokens ▸ List.mem_append_left _ ht
  apply (scanRest_scanned line cs.length cs ts h t hmem).writes
  obtain ⟨x, hx, rfl⟩ := List.mem_map.1 ht
  obtain ⟨p, -, hp⟩ := List.mem_filterMap.1 hx
  rintro rfl
  exact p.lexeme?_ne_lineEnd hp

/-- **Written tokens.** If a line scans, its tokens but the last can be written, with blanks between them, as a line
that scans as the same tokens. A text of any characters comes back from its literal. -/
theorem scanLine_rescans (line : Nat) :
    (∀ cs ts, scanLine line cs = .ok ts → ∃ body, ts = body ++ [Token.lineEnd line] ∧
      scanLine line (writtenLine body) = .ok ts ∧ '\n' ∉ writtenLine body ∧
      (writtenLine body).getLast? ≠ some '\r') ∧
    ∀ text : String, scanLine line (Literal.write text.toList) = .ok [Token.string line text, Token.lineEnd line] := by
  refine ⟨fun cs ts h => ?_, fun text => ?_⟩
  · obtain ⟨ls, rfl, hsafe, hwrites⟩ := scanLine_legible h
    have hwritten := writtenLine_writes hwrites
    have hls : (tokensOn line ls).map Token.lexeme = ls := by simp [tokensOn, Function.comp_def]
    rw [hls] at hwritten
    exact ⟨tokensOn line ls, rfl, hwritten.scanLine_eq hsafe line, hwritten.single, hwritten.last⟩
  · exact (string_writes text).scanLine_eq (List.pairwise_singleton _ _) line

/-- a line without blanks and with a comment: it is written with blanks and without the comment, the backslash twice -/
theorem scanLine_rescans_spaced :
    scanLine 1 ['x', '=', '"', '\\', 't', '"', '/', '/', 'y'] =
        .ok [Token.identifier 1 "x", Token.identifier 1 "=", Token.string 1 "\\t", Token.lineEnd 1] ∧
      ∃ body, [Token.identifier 1 "x", Token.identifier 1 "=", Token.string 1 "\\t", Token.lineEnd 1] =
          body ++ [Token.lineEnd 1] ∧
        scanLine 1 (writtenLine body) =
          .ok [Token.identifier 1 "x", Token.identifier 1 "=", Token.string 1 "\\t", Token.lineEnd 1] := by
  have hx : Item.next? 'x' ['=', '"', '\\', 't', '"', '/', '/', 'y'] =
      some (.spelled ['x'], ['=', '"', '\\', 't', '"', '/', '/', 'y']) := by decide
  have heq : Item.next? '=' ['"', '\\', 't', '"', '/', '/', 'y'] =
      some (.spelled ['='], ['"', '\\', 't', '"', '/', '/', 'y']) := by decide
  have hstring : Item.next? '"' ['\\', 't', '"', '/', '/', 'y'] = some (.quoted ['\\', 't'], ['/', '/', 'y']) := by
    decide
  have hcomment : Item.next? '/' ['/', 'y'] = some (.comment, []) := by decide
  have hscan : scanLine 1 ['x', '=', '"', '\\', 't', '"', '/', '/', 'y'] =
      .ok [Token.identifier 1 "x", Token.identifier 1 "=", Token.string 1 "\\t", Token.lineEnd 1] := by
    rw [scanLine, scanRest_item (by decide) hx, scanRest_item (by decide) heq, scanRest_item (by decide) hstring,
      scanRest_item (by decide) hcomment, scanRest_nil]
    rfl
  obtain ⟨body, hbody, hagain, -⟩ := (scanLine_rescans 1).1 _ _ hscan
  exact ⟨hscan, body, hbody, hagain⟩

end Stone
