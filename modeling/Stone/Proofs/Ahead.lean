/-
What lies ahead of a parsing action. A stream shows some tokens for certain, and after them come other lines, which are
not known: they may hold more tokens, or an error, or not be there. An action that stops before the last of the certain
tokens does the same whatever comes after them; an action that looks further meets what comes after.

- `Built.ahead`: a success that leaves one of the certain tokens does not depend on the lines after them.
- `Built.looks`: an action with nothing certain before it looks at the next line at once, or never looks at anything.
- `ofSource_ahead`: what the stream of a text shows, also when more lines follow.
-/
import Stone.Proofs.LineFed

namespace Stone

open TokenStream Parsing

/-- the lines to come of a stream -/
abbrev Lines := List (Except ScanError (List Token))

/-- the stream shows these tokens first, in lines without errors, and then has these lines -/
def Ahead (s : TokenStream) (ts : List Token) (later : Lines) : Prop :=
  ∃ lines : List (List Token), (∀ line ∈ lines, line ≠ []) ∧ s.lines = lines.map .ok ++ later ∧
    s.waiting ++ lines.flatten = ts

namespace Ahead

variable {s : TokenStream} {t : Token} {ts : List Token} {later : Lines}

/-- a stream that shows no token has nothing but the other lines -/
theorem eq_of_nil (h : Ahead s [] later) : s = ⟨[], later⟩ := by
  obtain ⟨lines, hne, hl, hw⟩ := h
  obtain ⟨waiting, all⟩ := s
  obtain ⟨rfl, hflat⟩ := List.append_eq_nil_iff.1 hw
  cases lines with
  | nil => exact congrArg _ hl
  | cons line lines =>
    rw [List.flatten_cons, List.append_eq_nil_iff] at hflat
    exact absurd hflat.1 (hne line List.mem_cons_self)

/-- the tokens of the stream: those that are shown, and those of the other lines up to an error -/
theorem tokens_eq (h : Ahead s ts later) : s.tokens = ts ++ sound later := by
  obtain ⟨lines, -, hl, hw⟩ := h
  have hsound : sound (lines.map .ok ++ later) = lines.flatten ++ sound later := by
    clear hl hw
    induction lines with
    | nil => rfl
    | cons line lines ih => rw [List.map_cons, List.cons_append, sound, ih, List.flatten_cons, List.append_assoc]
  rw [tokens, hl, hsound, ← List.append_assoc, hw]

theorem length_le (h : Ahead s ts later) : ts.length ≤ s.size := by
  have hlen := s.length_tokens_le
  rw [h.tokens_eq, List.length_append] at hlen
  omega

theorem clean (h : Ahead s ts []) : s.Clean := by
  obtain ⟨lines, -, hl, -⟩ := h
  intro line hline
  rw [hl, List.append_nil] at hline
  obtain ⟨ts, -, rfl⟩ := List.mem_map.1 hline
  exact ⟨ts, rfl⟩

/-- the first token that is shown is the next one -/
theorem peek (h : Ahead s (t :: ts) later) :
    ∃ s', s.peek 0 = (.ok t, s') ∧ Ahead s' (t :: ts) later ∧ s'.waiting ≠ [] := by
  obtain ⟨lines, hne, hl, hw⟩ := h
  obtain ⟨waiting, all⟩ := s
  simp only at hl hw
  subst hl
  have hfull : ∀ (u : Token) (waiting : List Token) (all : Lines),
      lookAhead 0 (u :: waiting) all = (.ok u, ⟨u :: waiting, all⟩) := by
    intro u waiting all
    cases all <;> rfl
  cases waiting with
  | cons u waiting =>
    obtain ⟨rfl, -⟩ := List.cons.inj hw
    exact ⟨_, hfull _ _ _, ⟨lines, hne, rfl, hw⟩, nofun⟩
  | nil =>
    cases lines with
    | nil => cases hw
    | cons line lines =>
      cases line with
      | nil => exact absurd rfl (hne _ List.mem_cons_self)
      | cons u line =>
        obtain ⟨rfl, -⟩ := List.cons.inj hw
        exact ⟨_, hfull _ _ _, ⟨lines, fun l hl => hne l (List.mem_cons_of_mem _ hl), rfl, hw⟩, nofun⟩

theorem run_peek (h : Ahead s (t :: ts) later) : ∃ s', Parsing.peek.run s = .ok t s' ∧ Ahead s' (t :: ts) later := by
  obtain ⟨s', hp, hs', -⟩ := h.peek
  refine ⟨s', ?_, hs'⟩
  simp only [Parsing.peek, ofStream, EStateM.run, hp]

theorem run_read (h : Ahead s (t :: ts) later) : ∃ s', Parsing.read.run s = .ok t s' ∧ Ahead s' ts later := by
  obtain ⟨s', hp, ⟨lines, hne, hl, hw⟩, hwait⟩ := h.peek
  refine ⟨⟨s'.waiting.tail, s'.lines⟩, ?_, lines, hne, hl, ?_⟩
  · simp only [Parsing.read, ofStream, EStateM.run, TokenStream.read, hp]
  · obtain ⟨u, waiting, hcons⟩ := List.exists_cons_of_ne_nil hwait
    rw [hcons, List.cons_append] at hw
    rw [hcons, List.tail_cons]
    exact (List.cons.inj hw).2

/-- the next line is shown as well -/
theorem next {line : List Token} (h : Ahead s ts (.ok line :: later)) (hne : line ≠ []) :
    Ahead s (ts ++ line) later := by
  obtain ⟨lines, hlines, hl, hw⟩ := h
  refine ⟨lines ++ [line], fun l hl => ?_, ?_, ?_⟩
  · rcases List.mem_append.1 hl with hl | hl
    · exact hlines l hl
    · exact List.mem_singleton.1 hl ▸ hne
  · rw [hl, List.map_append, List.append_assoc]
    rfl
  · rw [List.flatten_append, ← List.append_assoc, hw, List.flatten_singleton]

end Ahead

namespace Parsing

variable {α : Type} {p : Parsing α}

/-- **A success that leaves a token** does not depend on the lines after it. -/
theorem Built.ahead (h : Built p) {ts left : List Token} {a : α} (hr : p.run (ofTokens ts) = .ok a (ofTokens left))
    (hl : left ≠ []) {s : TokenStream} {later : Lines} (hs : Ahead s ts later) :
    ∃ s', p.run s = .ok a s' ∧ Ahead s' left later := by
  induction h generalizing ts left s with
  | pure a =>
    cases hr
    exact ⟨s, rfl, hs⟩
  | throw e => cases hr
  | peek =>
    rw [run_peek] at hr
    cases hr
    obtain ⟨t, rest, rfl⟩ := List.exists_cons_of_ne_nil hl
    exact hs.run_peek
  | read =>
    rw [run_read] at hr
    cases hr
    cases ts with
    | nil => exact absurd rfl hl
    | cons t rest => exact hs.run_read
  | @bind β γ p f hp hf ihp ihf =>
    obtain ⟨b, mid, h1, h2⟩ := ok_of_bind hr
    obtain ⟨mid, rfl, -⟩ := hp.suffix h1
    obtain ⟨rest, hrest, hsuf⟩ := (hf b).suffix h2
    obtain rfl : left = rest := congrArg TokenStream.waiting hrest
    have hmid : mid ≠ [] := by
      rintro rfl
      exact hl (List.suffix_nil.1 hsuf)
    obtain ⟨s₁, hs1, ha1⟩ := ihp h1 hmid hs
    obtain ⟨s₂, hs2, ha2⟩ := ihf b h2 hl ha1
    refine ⟨s₂, ?_, ha2⟩
    rw [EStateM.run_bind, hs1]
    exact hs2

/-- the result of an action that never looks at its stream -/
def constantly (r : Except (Stop ParseError) α) (s : TokenStream) : EStateM.Result (Stop ParseError) TokenStream α :=
  match r with
  | .ok a => .ok a s
  | .error e => .error e s

/-- **An action looks at the next line at once, or never**: an error there is its result, or its result is always the
same. -/
theorem Built.looks (h : Built p) :
    (∀ e more, ∃ s', p.run ⟨[], .error e :: more⟩ = .error (.raised (.scan e)) s') ∨
      ∃ r, ∀ s, p.run s = constantly r s := by
  induction h with
  | pure a => exact .inr ⟨.ok a, fun _ => rfl⟩
  | throw e => exact .inr ⟨.error e, fun _ => rfl⟩
  | peek => exact .inl fun e more => ⟨_, rfl⟩
  | read => exact .inl fun e more => ⟨_, rfl⟩
  | @bind β γ p f _ _ ihp ihf =>
    rcases ihp with hp | ⟨r, hp⟩
    · refine .inl fun e more => ?_
      obtain ⟨s', hs⟩ := hp e more
      exact ⟨s', by rw [EStateM.run_bind, hs]⟩
    · cases r with
      | error e =>
        refine .inr ⟨.error e, fun s => ?_⟩
        rw [EStateM.run_bind, hp]
        rfl
      | ok b =>
        have hrun : ∀ s, (p >>= f).run s = (f b).run s := by
          intro s
          rw [EStateM.run_bind, hp]
          rfl
        simp only [hrun]
        exact ihf b

end Parsing

/-! ## Lines -/

/-- tokens of whole lines: the last one is a line end, and none is the end of input -/
structure Lined (ts : List Token) : Prop where
  unended : Unended ts
  last : ∀ t, ts.getLast? = some t → t.lexeme = .lineEnd

namespace Lined

variable {ts rest : List Token} {t : Token}

theorem nil : Lined [] := ⟨nofun, nofun⟩

theorem suffix (h : Lined ts) (hs : rest <:+ ts) : Lined rest := by
  refine ⟨h.unended.suffix hs, fun t ht => h.last t ?_⟩
  obtain ⟨first, rfl⟩ := hs
  rw [List.getLast?_append, ht]
  rfl

theorem append {us : List Token} (h : Lined ts) (hu : Lined us) : Lined (ts ++ us) := by
  refine ⟨fun t ht => ?_, fun t ht => ?_⟩
  · rcases List.mem_append.1 ht with ht | ht
    · exact h.unended t ht
    · exact hu.unended t ht
  · rw [List.getLast?_append] at ht
    cases hl : us.getLast? with
    | none =>
      rw [hl] at ht
      exact h.last t ht
    | some u =>
      rw [hl] at ht
      cases ht
      exact hu.last _ hl

/-- a token that is no line end has others after it -/
theorem rest_ne_nil (h : Lined (t :: rest)) (ht : t.lexeme ≠ .lineEnd) : rest ≠ [] := by
  rintro rfl
  exact ht (h.last t rfl)

end Lined

/-- a line ends with its end -/
theorem scanRest_ends (line width : Nat) (cs : List Char) :
    ∀ ts, scanRest line width cs = .ok ts → ∃ first, ts = first ++ [Token.lineEnd line] := by
  fun_induction scanRest line width cs with
  | case1 cs hd =>
    intro ts h
    cases h
    exact ⟨[], rfl⟩
  | case2 cs c rest hd hn => intro ts h; cases h
  | case3 cs c rest hd item after hn ih =>
    intro ts h
    cases hi : item.tokens line with
    | error e => rw [hi] at h; cases h
    | ok first =>
      cases ho : scanRest line width after with
      | error e => rw [hi, ho] at h; cases h
      | ok others =>
        rw [hi, ho] at h
        cases h
        obtain ⟨more, rfl⟩ := ih others ho
        exact ⟨first ++ more, by rw [List.append_assoc]⟩

theorem lined_of_scanLine {line : Nat} {cs : List Char} {ts : List Token} (h : scanLine line cs = .ok ts) :
    Lined ts ∧ ts ≠ [] := by
  obtain ⟨first, rfl⟩ := scanRest_ends line cs.length cs ts h
  refine ⟨⟨fun t ht => (scanRest_scanned line cs.length cs _ h t ht).not_inputEnd, fun t ht => ?_⟩, by simp⟩
  rw [List.getLast?_concat] at ht
  cases ht
  rfl

/-- the lines of a text up to the first error, if there is one -/
theorem scanAll_split (first : Nat) (texts : List (List Char)) :
    ∃ lines : List (List Token), (∀ line ∈ lines, Lined line ∧ line ≠ []) ∧
      (scanAll first texts = lines.map .ok ∨ ∃ e more, scanAll first texts = lines.map .ok ++ .error e :: more) := by
  induction texts generalizing first with
  | nil => exact ⟨[], nofun, .inl rfl⟩
  | cons cs texts ih =>
    rw [scanAll]
    cases hs : scanLine first cs with
    | error e => exact ⟨[], nofun, .inr ⟨e, _, rfl⟩⟩
    | ok ts =>
      obtain ⟨lines, hlines, hall⟩ := ih (first + 1)
      refine ⟨ts :: lines, List.forall_mem_cons.2 ⟨lined_of_scanLine hs, hlines⟩, ?_⟩
      rcases hall with hall | ⟨e, more, hall⟩
      · exact .inl (by rw [hall]; rfl)
      · exact .inr ⟨e, more, by rw [hall]; rfl⟩

theorem lined_flatten {lines : List (List Token)} (h : ∀ line ∈ lines, Lined line ∧ line ≠ []) :
    Lined lines.flatten := by
  induction lines with
  | nil => exact .nil
  | cons line lines ih =>
    obtain ⟨hl, hm⟩ := List.forall_mem_cons.1 h
    exact hl.1.append (ih hm)

/-! ## Texts -/

/-- a text of whole lines -/
def WholeLines (text : String) : Prop := text = "" ∨ ∃ lines, text = lines ++ "\n"

theorem pieces_newline (cs rest : List Char) :
    Text.pieces (cs ++ '\n' :: rest) =
      ((Text.pieces cs).1, (Text.pieces cs).2 ++ (Text.pieces rest).1 :: (Text.pieces rest).2) := by
  induction cs with
  | nil => rfl
  | cons c cs ih =>
    have hstep : ∀ ds : List Char, Text.pieces (c :: ds) =
        if c = '\n' then ([], (Text.pieces ds).1 :: (Text.pieces ds).2)
        else (c :: (Text.pieces ds).1, (Text.pieces ds).2) :=
      fun _ => rfl
    rw [List.cons_append, hstep, hstep, ih]
    split <;> rfl

theorem ofPieces_append (piece next : List Char) (pieces more : List (List Char)) :
    Text.ofPieces piece (pieces ++ next :: more) =
      (piece :: pieces).map Text.withoutReturn ++ Text.ofPieces next more := by
  induction pieces generalizing piece with
  | nil => rfl
  | cons p pieces ih =>
    rw [List.cons_append, Text.ofPieces, ih]
    rfl

/-- after whole lines the lines of a text begin anew -/
theorem lines_whole_append {text : String} (h : WholeLines text) (more : String) :
    Text.lines (text ++ more).toList = Text.lines text.toList ++ Text.lines more.toList := by
  rcases h with rfl | ⟨lines, rfl⟩
  · rw [String.empty_append]
    rfl
  · have h1 : (lines ++ "\n" ++ more).toList = lines.toList ++ '\n' :: more.toList := by
      simp [String.toList_append]
    have h2 : (lines ++ "\n").toList = lines.toList ++ '\n' :: [] := by
      simp [String.toList_append]
    have hnil : Text.ofPieces (Text.pieces []).1 (Text.pieces []).2 = [] := rfl
    rw [h1, h2, Text.lines, Text.lines, Text.lines, pieces_newline, pieces_newline, ofPieces_append, ofPieces_append,
      hnil, List.append_nil]

/-- the stream of whole lines and more: the second text is scanned on later lines -/
theorem ofSource_whole_append {text : String} (h : WholeLines text) (more : String) :
    (ofSource (text ++ more)).lines =
      (ofSource text).lines ++ scanAll (1 + (Text.lines text.toList).length) (Text.lines more.toList) := by
  rw [ofSource, ofSource, lines_whole_append h, scanAll_append]

/-- **The stream of a text** shows the tokens of its lines up to the first line with an error, and so does the stream of
the text with more lines after it. -/
theorem ofSource_ahead (text : String) : ∃ ts later, Lined ts ∧ (later = [] ∨ ∃ e more, later = .error e :: more) ∧
    Ahead (ofSource text) ts later ∧ (WholeLines text → ∀ more : String, Ahead (ofSource (text ++ more)) ts
      (later ++ scanAll (1 + (Text.lines text.toList).length) (Text.lines more.toList))) := by
  obtain ⟨lines, hlines, hall⟩ := scanAll_split 1 (Text.lines text.toList)
  obtain ⟨later, hlater, hall⟩ : ∃ later, (later = [] ∨ ∃ e more, later = .error e :: more) ∧
      (ofSource text).lines = lines.map .ok ++ later := by
    rcases hall with hall | ⟨e, more, hall⟩
    · exact ⟨[], .inl rfl, hall.trans (List.append_nil _).symm⟩
    · exact ⟨.error e :: more, .inr ⟨e, more, rfl⟩, hall⟩
  refine ⟨lines.flatten, later, lined_flatten hlines, hlater, ⟨lines, fun line hl => (hlines line hl).2, hall, rfl⟩,
    fun hw more => ⟨lines, fun line hl => (hlines line hl).2, ?_, rfl⟩⟩
  rw [ofSource_whole_append hw, hall, List.append_assoc]

end Stone
