/-
Incomplete means completable. A session fed with lines asks for more lines exactly when the lines that it has are no
program yet, but can become one: what is wrong is never taken for unfinished, and what can still be finished is never
thrown away.

- `parseStatements_unfinished`: lines on which parsing misses the end can be closed by marks.
- `parseProgram_completable`: a text of whole lines that ends too early has a continuation with which it parses.
- `Repl.incomplete_iff_completable`: what feeding a line does, in every state of a session.
-/
import Stone.Proofs.Closing
import Stone.Proofs.Lexemes

namespace Stone

open TokenStream Parsing Grammar

/-! ## Lines that end too early -/

section Unfinished

variable {l : Level} {line budget : Nat} {ts : List Token} {s : TokenStream} {later : Lines}

/-- the input is not at its end while there are tokens -/
theorem atEnd_ahead {t : Token} (hs : Ahead s (t :: ts) later) (ht : t.isInputEnd = false) :
    ∃ s', Language.atEnd.run s = .ok false s' ∧ Ahead s' (t :: ts) later := by
  obtain ⟨s', hr, hs'⟩ := hs.run_peek
  refine ⟨s', ?_, hs'⟩
  rw [Language.atEnd, EStateM.run_bind, hr, ← ht]
  rfl

/-- **Lines on which parsing misses the end** are all there is, and some marks on the next line close what they left
open. By induction on the statements: each is complete, or wrong, or waits. -/
theorem parseStatements_unfinished (line : Nat) (hl : Lined ts) (hs : Ahead s ts later)
    (hlater : later = [] ∨ ∃ e more, later = .error e :: more) (hb : ts.length < budget) {e : Stop ParseError}
    {s' : TokenStream} (hr : ((Language.ofLevel l).parseStatements budget).run s = .error e s')
    (he : e.isUnexpectedEnd = true) :
    later = [] ∧ ∃ cut raw, (∀ t ∈ cut, Closer line t) ∧
      ∀ t : Token, t.lexeme = .lineEnd → Statements l (ts ++ (cut ++ [t])) raw := by
  induction budget generalizing ts s with
  | zero => cases hb
  | succ budget ih =>
    rw [Language.parseStatements, EStateM.run_bind] at hr
    cases ts with
    | nil =>
      obtain rfl := hs.eq_of_nil
      rcases hlater with rfl | ⟨e, more, rfl⟩
      · cases hr
      · cases hr
        cases he
    | cons t us =>
      obtain ⟨s₁, h1, hs1⟩ := atEnd_ahead hs (hl.unended t List.mem_cons_self)
      rw [h1] at hr
      simp only [Bool.false_eq_true, if_false, EStateM.run_bind] at hr
      cases Language.statement_fate l line hl (List.cons_ne_nil t us) with
      | complete n rest hp hd =>
        obtain ⟨s₂, h2, hs2⟩ := hp () s₁ later hs1
        have hd0 : Derives l.grammar maxNesting (.rule Place.program) (t :: us) [n] rest := by simpa using hd []
        rw [h2] at hr
        cases h3 : ((Language.ofLevel l).parseStatements budget).run s₂ with
        | ok ns s₃ =>
          simp only [h3] at hr
          cases hr
        | error e' s₃ =>
          simp only [h3] at hr
          cases hr
          have htakes := program_takes hd0
          obtain ⟨hlater, cut, raw, hcut, hraw⟩ := ih (hl.suffix hd0.suffix) hs2 (by omega) h3
          exact ⟨hlater, cut, n :: raw, hcut, fun t ht => .more (hd _) (hraw t ht)⟩
      | wrong e' he' hf =>
        obtain ⟨s₂, h2⟩ := hf () s₁ later hs1
        rw [h2] at hr
        cases hr
        rw [he'] at he
        cases he
      | unfinished cut n hcut hlooks hd =>
        rcases hlater with rfl | ⟨e', more, rfl⟩
        · exact ⟨rfl, cut, [n], hcut, fun t ht => .more (hd t ht) .done⟩
        · obtain ⟨s₂, h2⟩ := hlooks () s₁ e' more hs1
          rw [h2] at hr
          cases hr
          cases he

end Unfinished

/-! ## Marks as a text -/

/-- marks that close something can be written on a line -/
theorem closers_written {line : Nat} {cut : List Token} (h : ∀ t ∈ cut, Closer line t) :
    ∃ cs ls, cut = tokensOn line ls ∧ Writes cs ls ∧ QuoteSafe ls := by
  induction cut with
  | nil => exact ⟨[], [], rfl, .nil, .nil⟩
  | cons t cut ih =>
    obtain ⟨⟨text, htext, rfl⟩, hcut⟩ := List.forall_mem_cons.1 h
    obtain ⟨cs, ls, rfl, hw, hq⟩ := ih hcut
    have hmark : ∃ c, text.toList = [c] ∧ Writes.isSolid c = true ∧ Lexeme.identifier text ≠ loneQuote := by
      simp only [List.mem_cons, List.not_mem_nil, or_false] at htext
      rcases htext with rfl | rfl | rfl
      · exact ⟨'\x7d', rfl, rfl, by decide⟩
      · exact ⟨')', rfl, rfl, by decide⟩
      · exact ⟨'\x7b', rfl, rfl, by decide⟩
    obtain ⟨c, hc, hsolid, hquote⟩ := hmark
    exact ⟨c :: cs, .identifier text :: ls, rfl, .solid hc hsolid hw,
      List.pairwise_cons.2 ⟨fun _ _ he => absurd he hquote, hq⟩⟩

/-- a text whose only line has these tokens -/
theorem lines_of_written {cs : List Char} {ls : List Lexeme} (h : Writes cs ls) :
    Text.lines (String.ofList (cs ++ ['\n'])).toList = [cs] := by
  rw [String.toList_ofList, lines_append h.single, Text.withoutReturn, if_neg h.last]
  rfl

/-! ## Texts that end too early -/

section Texts

variable {l : Level} {text more : String} {e : Stop ParseError} {ns : List Node}

/-- **A text that ends too early can be completed.** -/
theorem parseProgram_completable (hw : WholeLines text) (h : parseProgram l text = .error e)
    (he : e.isUnexpectedEnd = true) : ∃ more ns, parseProgram l (text ++ more) = .ok ns := by
  rw [parseProgram_eq] at h
  cases hr : ((Language.ofLevel l).parseStatements ((ofSource text).size + 1)).run (ofSource text) with
  | ok ns s' => rw [hr] at h; cases h
  | error e' s' =>
    rw [hr] at h
    cases h
    obtain ⟨ts, later, hl, hlater, hs, hwhole⟩ := ofSource_ahead text
    obtain ⟨rfl, cut, raw, hcut, hraw⟩ := parseStatements_unfinished (1 + (Text.lines text.toList).length) hl hs hlater
      (Nat.lt_succ_of_le hs.length_le) hr he
    obtain ⟨cs, ls, rfl, hcs, hq⟩ := closers_written hcut
    have hmore := hwhole hw (String.ofList (cs ++ ['\n']))
    rw [lines_of_written hcs, scanAll, scanAll, hcs.scanLine_eq hq] at hmore
    have hall := hmore.next (by simp)
    refine ⟨String.ofList (cs ++ ['\n']), withoutEmpty raw, parseProgram_ok.2 ⟨hall.clean, raw, ?_, rfl⟩⟩
    rw [hall.tokens_eq, sound, List.append_nil]
    exact hraw _ rfl

/-- a text that does not parse, but does with something after it, ends too early -/
theorem unexpectedEnd_of_completable (hw : WholeLines text) (h : parseProgram l text = .error e)
    (hm : parseProgram l (text ++ more) = .ok ns) : e.isUnexpectedEnd = true := by
  obtain ⟨hc, raw, hraw, -⟩ := parseProgram_ok.1 hm
  have hlines := ofSource_whole_append hw more
  have hclean : (ofSource text).Clean := fun line hl => hc line (by rw [hlines]; exact List.mem_append_left _ hl)
  have htokens : (ofSource (text ++ more)).tokens = (ofSource text).tokens ++
      sound (scanAll (1 + (Text.lines text.toList).length) (Text.lines more.toList)) := by
    rw [tokens, hlines, sound_append hclean]
    rfl
  rw [htokens] at hraw
  rcases hraw.truncated (unended_ofSource text) with ⟨first, others, -, hfirst, -⟩ | ⟨-, hb⟩
  · rw [parseProgram_ok.2 ⟨hclean, first, hfirst, rfl⟩] at h
    cases h
  · obtain ⟨expected, hp⟩ := parseProgram_of_breaks hclean hb
    rw [hp] at h
    cases h
    rfl

end Texts

/-! ## Feeding a line -/

namespace Repl

variable {r : Repl} {line : String}

/-- lines that do not parse change nothing, and wait or are dropped -/
theorem feed_of_error {e : Stop ParseError} (h : parseProgram r.session.level (r.pending ++ line ++ "\n") = .error e) :
    r.feed line = if e.isUnexpectedEnd then (.incomplete, ⟨r.session, r.pending ++ line ++ "\n"⟩)
      else (.failed (e.map .parse), ⟨r.session, ""⟩) := by
  rw [feed]
  simp only [h]
  cases e <;> rfl

/-- lines that parse run -/
theorem feed_of_ok {ns : List Node} (h : parseProgram r.session.level (r.pending ++ line ++ "\n") = .ok ns) :
    (r.feed line).1 ≠ .incomplete ∧ (r.feed line).2.pending = "" := by
  rw [feed]
  simp only [h]
  rcases r.session.evalNodes ns with ⟨e | vs, s⟩ <;> exact ⟨by simp, rfl⟩

/-- **Incomplete means completable.** In every state, a line that is fed leaves the session incomplete if and only if
the lines that wait do not parse but do with some text after them. If it does, they wait on; else nothing waits any
more. The session is as before whenever the lines do not parse. -/
theorem incomplete_iff_completable (r : Repl) (line : String) :
    let text := r.pending ++ line ++ "\n"
    ((r.feed line).1 = .incomplete ↔ (∃ e, parseProgram r.session.level text = .error e) ∧
      ∃ more ns, parseProgram r.session.level (text ++ more) = .ok ns) ∧
    ((r.feed line).1 = .incomplete → (r.feed line).2 = ⟨r.session, text⟩) ∧
    ((r.feed line).1 ≠ .incomplete → (r.feed line).2.pending = "") ∧
    ∀ e, parseProgram r.session.level text = .error e → (r.feed line).2.session = r.session := by
  intro text
  have hw : WholeLines text := .inr ⟨r.pending ++ line, rfl⟩
  cases hp : parseProgram r.session.level text with
  | ok ns =>
    obtain ⟨hf, hpending⟩ := feed_of_ok hp
    refine ⟨⟨fun h => absurd h hf, ?_⟩, fun h => absurd h hf, fun _ => hpending, nofun⟩
    rintro ⟨⟨e, he⟩, -⟩
    cases he
  | error e =>
    have hfeed := feed_of_error hp
    cases he : e.isUnexpectedEnd with
    | true =>
      rw [he, if_pos rfl] at hfeed
      rw [hfeed]
      exact ⟨⟨fun _ => ⟨⟨e, rfl⟩, parseProgram_completable hw hp he⟩, fun _ => rfl⟩, fun _ => rfl,
        fun h => absurd rfl h, fun _ _ => rfl⟩
    | false =>
      rw [he, if_neg (by simp)] at hfeed
      rw [hfeed]
      refine ⟨⟨nofun, ?_⟩, nofun, fun _ => rfl, fun _ _ => rfl⟩
      rintro ⟨-, more, ns, hm⟩
      rw [unexpectedEnd_of_completable hw hp hm] at he
      cases he

/-- a block that is open at the end of a line waits, for it can be closed; a closing brace without one does not -/
theorem open_block_incomplete :
    ((Repl.new .closures).feed "if 1 \x7b").1 = .incomplete ∧
      ((Repl.new .closures).feed "if 1 \x7b").2 = ⟨.new .closures, "if 1 \x7b\n"⟩ ∧
      ((Repl.new .closures).feed "\x7d").2.pending = "" := by
  obtain ⟨hiff, hwaits, -⟩ := incomplete_iff_completable (Repl.new .closures) "if 1 \x7b"
  have hopen : ((Repl.new .closures).feed "if 1 \x7b").1 = .incomplete := by
    refine hiff.2 ⟨⟨.raised (.unexpected Token.inputEnd (some "\x7d")), by cbv⟩, "\x7d\n",
      [.list .conditional [.leaf .number ⟨1, .number Decimal.one⟩, .list .block []]], by cbv⟩
  obtain ⟨-, -, hdropped, -⟩ := incomplete_iff_completable (Repl.new .closures) "\x7d"
  exact ⟨hopen, hwaits hopen, hdropped (by cbv; simp)⟩

end Repl

end Stone
