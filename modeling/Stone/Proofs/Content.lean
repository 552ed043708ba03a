/-
The content of a stream: its tokens in order, and an error in the place of every line that does not scan. How much of it
has been scanned already is not part of it. A call of `read` takes the first entry away, whatever it is; a call of
`peek` takes nothing away but the first error on its way.

- `peek_content`, `read_content`: what the two calls answer and leave, by the content alone.
- `Built.taken`: what an action takes when it succeeds are the first tokens of the content.
-/
import Stone.Proofs.Stream

namespace Stone

/-- what stands in one place of a stream: a token, or the error of a line that does not scan -/
abbrev Entry := Except ScanError Token

namespace TokenStream

/-- the entries of a line -/
def lineEntries : Except ScanError (List Token) → List Entry
  | .ok ts => ts.map .ok
  | .error e => [.error e]

/-- all that the stream has to give, in order -/
def content (s : TokenStream) : List Entry := s.waiting.map .ok ++ s.lines.flatMap lineEntries

/-- looks so many tokens ahead. An error on the way is the answer, and is dropped. -/
def look : Nat → List Entry → Entry × List Entry
  | _, [] => (.ok Token.inputEnd, [])
  | _, .error e :: rest => (.error e, rest)
  | 0, .ok t :: rest => (.ok t, .ok t :: rest)
  | k + 1, .ok t :: rest => ((look k rest).1, .ok t :: (look k rest).2)

/-- takes the first entry -/
def takeEntry : List Entry → Entry × List Entry
  | [] => (.ok Token.inputEnd, [])
  | entry :: rest => (entry, rest)

/-- the tokens before the first error -/
def reached : List Entry → List Token
  | .ok t :: rest => t :: reached rest
  | _ => []

@[simp] theorem look_nil (k : Nat) : look k [] = (.ok Token.inputEnd, []) := by
  rw [look]

@[simp] theorem look_error (k : Nat) (e : ScanError) (rest : List Entry) :
    look k (.error e :: rest) = (.error e, rest) := by
  rw [look]

/-- an error that is met is one of the entries -/
theorem mem_of_look_error {k : Nat} {e : ScanError} {entries : List Entry} (h : (look k entries).1 = .error e) :
    .error e ∈ entries := by
  induction k, entries using look.induct with
  | case1 _ => simp at h
  | case2 _ bad rest =>
    rw [look_error] at h
    cases h
    exact List.mem_cons_self
  | case3 t rest => simp [look] at h
  | case4 k t rest ih => exact List.mem_cons_of_mem _ (ih (by simpa [look] using h))

@[simp] theorem content_ofTokens (ts : List Token) : (ofTokens ts).content = ts.map .ok :=
  List.append_nil _

theorem content_line (waiting : List Token) (line : Except ScanError (List Token))
    (lines : List (Except ScanError (List Token))) :
    content ⟨waiting, line :: lines⟩ = waiting.map .ok ++ (lineEntries line ++ lines.flatMap lineEntries) := rfl

/-- a line that is taken in is content as before -/
theorem content_taken_in (waiting ts : List Token) (lines : List (Except ScanError (List Token))) :
    content ⟨waiting ++ ts, lines⟩ = content ⟨waiting, .ok ts :: lines⟩ := by
  rw [content_line, content, List.map_append, List.append_assoc]
  rfl

/-! ## Looking -/

variable {waiting : List Token} {k : Nat} {t : Token}

/-- what waits is seen as it is -/
theorem look_waiting (h : waiting[k]? = some t) (rest : List Entry) :
    look k (waiting.map .ok ++ rest) = (.ok t, waiting.map .ok ++ rest) := by
  induction waiting generalizing k with
  | nil => simp at h
  | cons u us ih =>
    cases k with
    | zero => cases h; rfl
    | succ k =>
      rw [List.getElem?_cons_succ] at h
      rw [List.map_cons, List.cons_append, look, ih h]

/-- nothing comes after what waits -/
theorem look_past (h : waiting[k]? = none) : look k (waiting.map .ok) = (.ok Token.inputEnd, waiting.map .ok) := by
  induction waiting generalizing k with
  | nil => exact look_nil k
  | cons u us ih =>
    cases k with
    | zero => cases h
    | succ k =>
      rw [List.getElem?_cons_succ] at h
      rw [List.map_cons, look, ih h]

/-- an error comes after what waits -/
theorem look_bad (h : waiting[k]? = none) (e : ScanError) (rest : List Entry) :
    look k (waiting.map .ok ++ .error e :: rest) = (.error e, waiting.map .ok ++ rest) := by
  induction waiting generalizing k with
  | nil => exact look_error k e rest
  | cons u us ih =>
    cases k with
    | zero => cases h
    | succ k =>
      rw [List.getElem?_cons_succ] at h
      rw [List.map_cons, List.cons_append, look, ih h]
      rfl

theorem lookAhead_content (k : Nat) (waiting : List Token) (lines : List (Except ScanError (List Token))) :
    ((lookAhead k waiting lines).1, (lookAhead k waiting lines).2.content) = look k (content ⟨waiting, lines⟩) := by
  induction lines generalizing waiting with
  | nil =>
    rw [lookAhead, content]
    cases hk : waiting[k]? with
    | some t => exact (look_waiting hk []).symm
    | none =>
      simp only [List.flatMap_nil, List.append_nil, look_past hk]
      rfl
  | cons line lines ih =>
    rw [lookAhead.eq_def]
    simp only
    cases hk : waiting[k]? with
    | some t => exact (look_waiting hk _).symm
    | none =>
      cases line with
      | ok ts => rw [← content_taken_in]; exact ih (waiting ++ ts)
      | error e => exact (look_bad hk e _).symm

/-- **Looking ahead**, by the content alone. -/
theorem peek_content (k : Nat) (s : TokenStream) : ((s.peek k).1, (s.peek k).2.content) = look k s.content :=
  lookAhead_content k s.waiting s.lines

/-- **Taking**, by the content alone. -/
theorem read_content (s : TokenStream) : (s.read.1, s.read.2.content) = takeEntry s.content := by
  have hp := peek_content 0 s
  have hshows := peek_shows s
  rw [read]
  rcases hr : s.peek 0 with ⟨e | t, s'⟩
  · rw [hr] at hp
    cases hc : s.content with
    | nil => rw [hc] at hp; cases hp
    | cons entry rest => cases entry <;> rw [hc] at hp <;> cases hp; rfl
  · rw [hr] at hp hshows
    obtain ⟨waiting, lines⟩ := s'
    cases waiting with
    | nil =>
      obtain rfl : lines = [] := hshows.2.2.2 rfl
      cases hc : s.content with
      | nil => rw [hc] at hp; cases hp; rfl
      | cons entry rest => cases entry <;> rw [hc] at hp <;> cases hp
    | cons u us =>
      cases hc : s.content with
      | nil => rw [hc] at hp; cases hp
      | cons entry rest => cases entry <;> rw [hc] at hp <;> cases hp; rfl

theorem reached_append (ts : List Token) (rest : List Entry) :
    reached (ts.map .ok ++ rest) = ts ++ reached rest := by
  induction ts with
  | nil => rfl
  | cons t ts ih => rw [List.map_cons, List.cons_append, reached, ih]; rfl

theorem tokens_eq_reached (s : TokenStream) : s.tokens = reached s.content := by
  have hlines : ∀ lines, sound lines = reached (lines.flatMap lineEntries) := by
    intro lines
    induction lines with
    | nil => rfl
    | cons line lines ih =>
      cases line with
      | error e => rfl
      | ok ts => rw [sound, ih, List.flatMap_cons, lineEntries, reached_append]
  rw [tokens, content, reached_append, hlines]

end TokenStream

open TokenStream

namespace Parsing

/-- the result of a call that gets this answer -/
def answered (entry : Entry) (s : TokenStream) : EStateM.Result (Stop ParseError) TokenStream Token :=
  match entry with
  | .ok t => .ok t s
  | .error e => .error (.raised (.scan e)) s

theorem run_ofStream (f : TokenStream → Except ScanError Token × TokenStream) (s : TokenStream) :
    (ofStream f).run s = answered (f s).1 (f s).2 := by
  simp only [ofStream, EStateM.run]
  rcases f s with ⟨_ | _, _⟩ <;> rfl

theorem run_peek_content (s : TokenStream) :
    ∃ s', peek.run s = answered (look 0 s.content).1 s' ∧ s'.content = (look 0 s.content).2 := by
  rw [← peek_content]
  exact ⟨_, run_ofStream _ s, rfl⟩

theorem run_read_content (s : TokenStream) :
    ∃ s', read.run s = answered (takeEntry s.content).1 s' ∧ s'.content = (takeEntry s.content).2 := by
  rw [← read_content]
  exact ⟨_, run_ofStream _ s, rfl⟩

/-- what an action takes when it succeeds are the first tokens of the content -/
theorem Built.taken {α : Type} {p : Parsing α} (h : Built p) {s s' : TokenStream} {a : α}
    (hr : p.run s = .ok a s') : ∃ ts : List Token, s.content = ts.map .ok ++ s'.content := by
  induction h generalizing s s' with
  | pure a => cases hr; exact ⟨[], rfl⟩
  | throw e => cases hr
  | peek =>
    obtain ⟨u, hu, hc⟩ := run_peek_content s
    rw [hu] at hr
    rcases hs : s.content with _ | ⟨_ | t, rest⟩ <;> rw [hs] at hr hc <;> cases hr <;> exact ⟨[], hc.symm⟩
  | read =>
    obtain ⟨u, hu, hc⟩ := run_read_content s
    rw [hu] at hr
    rcases hs : s.content with _ | ⟨_ | t, rest⟩ <;> rw [hs] at hr hc <;> cases hr
    · exact ⟨[], hc.symm⟩
    · exact ⟨[_], by rw [hc]; rfl⟩
  | @bind β γ p f _ _ ihp ihf =>
    rw [EStateM.run_bind] at hr
    cases hp : p.run s with
    | error e mid => rw [hp] at hr; cases hr
    | ok b mid =>
      rw [hp] at hr
      obtain ⟨ts, hts⟩ := ihp hp
      obtain ⟨us, hus⟩ := ihf b hr
      exact ⟨ts ++ us, by rw [hts, hus, List.map_append, List.append_assoc]⟩

/-- on streams of the same content an action succeeds alike -/
theorem Built.by_content {α : Type} {p : Parsing α} (h : Built p) {s s' u : TokenStream} {a : α}
    (hs : s.content = s'.content) (hr : p.run s = .ok a u) : ∃ u', p.run s' = .ok a u' ∧ u.content = u'.content := by
  induction h generalizing s s' u with
  | pure a => cases hr; exact ⟨s', rfl, hs⟩
  | throw e => cases hr
  | peek =>
    obtain ⟨v, hv, hc⟩ := run_peek_content s
    obtain ⟨v', hv', hc'⟩ := run_peek_content s'
    rw [hv, hs] at hr
    rw [hs] at hc
    rw [hv']
    cases hx : (look 0 s'.content).1 <;> rw [hx] at hr <;> cases hr
    exact ⟨v', rfl, hc.trans hc'.symm⟩
  | read =>
    obtain ⟨v, hv, hc⟩ := run_read_content s
    obtain ⟨v', hv', hc'⟩ := run_read_content s'
    rw [hv, hs] at hr
    rw [hs] at hc
    rw [hv']
    cases hx : (takeEntry s'.content).1 <;> rw [hx] at hr <;> cases hr
    exact ⟨v', rfl, hc.trans hc'.symm⟩
  | @bind β γ p f _ _ ihp ihf =>
    rw [EStateM.run_bind] at hr
    cases hp : p.run s with
    | error e mid => rw [hp] at hr; cases hr
    | ok b mid =>
      rw [hp] at hr
      obtain ⟨mid', hmid, hc⟩ := ihp hs hp
      obtain ⟨u', hu, hcu⟩ := ihf b hc hr
      exact ⟨u', by rw [EStateM.run_bind, hmid]; exact hu, hcu⟩

end Parsing

end Stone
