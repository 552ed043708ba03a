/-
Any order of calls sees one stream. Lines are scanned only as far as a call looks, and a line that does not scan is
dropped by the call that meets it; nevertheless the tokens that are read are those of the other lines, in order and with
the end of input after them, and every bad line is reported once.

All calls are explained by the content of the stream: a call answers and leaves what `entryCall` says, so a run over any
calls is a run over a list.

- `reads_of_transcript`: the tokens that are read, from any stream.
- `errors_of_transcript`: the errors that are reported, from any stream.
- `peeked_is_read`: what a successful look ahead has shown is read, whatever calls come between.
- `interleaved_calls`: the three, for source texts.
-/
import Stone.Proofs.Content

namespace Stone

/-- a call on a stream -/
inductive StreamCall where
  | read
  | peek (k : Nat)
deriving DecidableEq

namespace TokenStream

/-- the answer to a call, and the stream after it -/
def call : StreamCall → TokenStream → Entry × TokenStream
  | .read, s => s.read
  | .peek k, s => s.peek k

/-- calls one after another, each with its answer -/
def transcript : List StreamCall → TokenStream → List (StreamCall × Entry)
  | [], _ => []
  | c :: more, s => (c, (s.call c).1) :: transcript more (s.call c).2

/-- the stream after these calls -/
def afterCalls : List StreamCall → TokenStream → TokenStream
  | [], s => s
  | c :: more, s => afterCalls more (s.call c).2

/-- the answers to the calls of `read` -/
def reads (tr : List (StreamCall × Entry)) : List Entry :=
  tr.filterMap fun p => if p.1 = .read then some p.2 else none

def errorOf {α : Type} : Except ScanError α → Option ScanError
  | .ok _ => none
  | .error e => some e

/-- the tokens among these entries -/
def tokensAmong (entries : List Entry) : List Token := entries.filterMap Except.toOption

/-- the errors among these entries -/
def errorsAmong (entries : List Entry) : List ScanError := entries.filterMap errorOf

/-- the tokens of all lines of a text that scan -/
def scannedTokens (source : String) : List Token := ((ofSource source).lines.filterMap Except.toOption).flatten

/-- the errors of all lines of a text that do not scan -/
def badLines (source : String) : List ScanError := (ofSource source).lines.filterMap errorOf

/-! ## One call -/

/-- a call, by the content alone -/
def entryCall : StreamCall → List Entry → Entry × List Entry
  | .read => takeEntry
  | .peek k => look k

theorem call_content (c : StreamCall) (s : TokenStream) :
    ((s.call c).1, (s.call c).2.content) = entryCall c s.content := by
  cases c with
  | read => exact read_content s
  | peek k => exact peek_content k s

@[simp] theorem call_answer (c : StreamCall) (s : TokenStream) : (s.call c).1 = (entryCall c s.content).1 :=
  congrArg Prod.fst (call_content c s)

@[simp] theorem content_call (c : StreamCall) (s : TokenStream) :
    (s.call c).2.content = (entryCall c s.content).2 :=
  congrArg Prod.snd (call_content c s)

@[simp] theorem reads_read (x : Entry) (tr : List (StreamCall × Entry)) : reads ((.read, x) :: tr) = x :: reads tr := rfl

@[simp] theorem reads_peek (k : Nat) (x : Entry) (tr : List (StreamCall × Entry)) :
    reads ((.peek k, x) :: tr) = reads tr := rfl

@[simp] theorem tokensAmong_ok (t : Token) (entries : List Entry) :
    tokensAmong (.ok t :: entries) = t :: tokensAmong entries := rfl

@[simp] theorem tokensAmong_error (e : ScanError) (entries : List Entry) :
    tokensAmong (.error e :: entries) = tokensAmong entries := rfl

@[simp] theorem errorsAmong_ok (t : Token) (entries : List Entry) :
    errorsAmong (.ok t :: entries) = errorsAmong entries := rfl

@[simp] theorem errorsAmong_error (e : ScanError) (entries : List Entry) :
    errorsAmong (.error e :: entries) = e :: errorsAmong entries := rfl

/-- looking takes no token away -/
theorem tokensAmong_look (k : Nat) (c : List Entry) : tokensAmong (look k c).2 = tokensAmong c := by
  fun_induction look k c with
  | case1 => rfl
  | case2 => rfl
  | case3 => rfl
  | case4 k t rest ih => rw [tokensAmong_ok, tokensAmong_ok, ih]

/-- looking takes away the error that it answers -/
theorem errorsAmong_look (k : Nat) (c : List Entry) :
    errorsAmong ((look k c).1 :: (look k c).2) = errorsAmong c := by
  fun_induction look k c with
  | case1 => rfl
  | case2 => rfl
  | case3 => rfl
  | case4 k t rest ih =>
    rw [errorsAmong_ok, ← ih]
    cases (look k rest).1 <;> rfl

/-- a call takes away the error that it answers, and no other -/
theorem errorsAmong_call (c : StreamCall) (entries : List Entry) :
    errorsAmong ((entryCall c entries).1 :: (entryCall c entries).2) = errorsAmong entries := by
  cases c with
  | read => cases entries <;> rfl
  | peek k => exact errorsAmong_look k entries

/-- what is shown at some distance is shown there after other looks -/
theorem look_look {k : Nat} {c : List Entry} {t : Token} (h : (look k c).1 = .ok t) (j : Nat) :
    (look k (look j c).2).1 = .ok t := by
  induction c generalizing j k with
  | nil => rw [look_nil]; exact h
  | cons entry rest ih =>
    cases entry with
    | error e => rw [look_error] at h; cases h
    | ok u =>
      cases j with
      | zero => exact h
      | succ j =>
        cases k with
        | zero => exact h
        | succ k => exact ih h j

/-! ## All calls -/

theorem afterCalls_append (calls more : List StreamCall) (s : TokenStream) :
    s.afterCalls (calls ++ more) = (s.afterCalls calls).afterCalls more := by
  induction calls generalizing s with
  | nil => rfl
  | cons c calls ih => exact ih _

/-- **What is read** are the tokens of the content in order, and the end of input after them. -/
theorem reads_of_transcript (calls : List StreamCall) (s : TokenStream) :
    tokensAmong (reads (transcript calls s)) =
      (tokensAmong s.content).takeD (tokensAmong (reads (transcript calls s))).length Token.inputEnd := by
  induction calls generalizing s with
  | nil => rfl
  | cons c calls ih =>
    have ih := ih (s.call c).2
    rw [transcript, call_answer]
    rw [content_call] at ih
    cases c with
    | peek k => rwa [reads_peek, ← tokensAmong_look k s.content]
    | read =>
      rw [reads_read]
      rcases hc : s.content with _ | ⟨e | t, rest⟩ <;> rw [hc] at ih
      · rw [entryCall, takeEntry, tokensAmong_ok, List.length_cons, List.takeD_succ]
        exact congrArg (Token.inputEnd :: ·) ih
      · rwa [entryCall, takeEntry, tokensAmong_error, tokensAmong_error]
      · rw [entryCall, takeEntry, tokensAmong_ok, tokensAmong_ok, List.length_cons, List.takeD_succ]
        exact congrArg (t :: ·) ih

/-- **What is reported** are the errors of the content in order: those that were answered and those still to come. -/
theorem errors_of_transcript (calls : List StreamCall) (s : TokenStream) :
    errorsAmong ((transcript calls s).map Prod.snd) ++ errorsAmong (s.afterCalls calls).content =
      errorsAmong s.content := by
  induction calls generalizing s with
  | nil => rfl
  | cons c calls ih =>
    have ih := ih (s.call c).2
    have hstep := errorsAmong_call c s.content
    rw [content_call] at ih
    rw [transcript, List.map_cons, call_answer, afterCalls, ← hstep]
    cases (entryCall c s.content).1 with
    | ok t => rw [errorsAmong_ok, errorsAmong_ok, ih]
    | error e => rw [errorsAmong_error, errorsAmong_error, List.cons_append, ih]

/-- a call never adds to the content -/
theorem length_call (c : StreamCall) (s : TokenStream) : (s.call c).2.content.length ≤ s.content.length := by
  have hlook : ∀ k entries, (look k entries).2.length ≤ entries.length := by
    intro k entries
    fun_induction look k entries with
    | case1 => exact Nat.le_refl _
    | case2 => exact Nat.le_succ _
    | case3 => exact Nat.le_refl _
    | case4 k t rest ih => exact Nat.succ_le_succ ih
  rw [content_call]
  cases c with
  | read => cases s.content <;> simp [entryCall, takeEntry]
  | peek k => exact hlook k s.content

theorem length_afterCalls (calls : List StreamCall) (s : TokenStream) :
    (s.afterCalls calls).content.length ≤ s.content.length := by
  induction calls generalizing s with
  | nil => exact Nat.le_refl _
  | cons c calls ih => exact (ih _).trans (length_call c s)

theorem content_after_reads (n : Nat) (s : TokenStream) :
    (s.afterCalls (List.replicate n .read)).content = s.content.drop n := by
  induction n generalizing s with
  | zero => rfl
  | succ n ih =>
    rw [List.replicate_succ, afterCalls, ih, content_call]
    cases s.content <;> simp [entryCall, takeEntry]

/-- **Every error is reported** once enough has been read. -/
theorem errors_after_reads (calls : List StreamCall) (s : TokenStream) {n : Nat} (hn : s.content.length ≤ n) :
    errorsAmong ((transcript (calls ++ List.replicate n .read) s).map Prod.snd) = errorsAmong s.content := by
  have hall := errors_of_transcript (calls ++ List.replicate n .read) s
  have hempty : (s.afterCalls (calls ++ List.replicate n .read)).content = [] := by
    rw [afterCalls_append, content_after_reads]
    exact List.drop_eq_nil_of_le ((length_afterCalls calls s).trans hn)
  rwa [hempty, show errorsAmong [] = [] from rfl, List.append_nil] at hall

/-- what has been shown is read, after the tokens before it, whatever calls come between -/
theorem peeked_is_read (calls : List StreamCall) {s : TokenStream} {k : Nat} {t : Token}
    (h : (look k s.content).1 = .ok t) {i : Nat} {x : Entry} (hi : i ≤ k)
    (hx : (reads (transcript calls s))[i]? = some x) : (∃ u, x = .ok u) ∧ (i = k → x = .ok t) := by
  induction calls generalizing s k i with
  | nil => cases hx
  | cons c calls ih =>
    rw [transcript, call_answer] at hx
    cases c with
    | peek j =>
      rw [reads_peek] at hx
      exact ih (by rw [content_call]; exact look_look h j) hi hx
    | read =>
      rw [reads_read] at hx
      have hleft := content_call .read s
      rcases hc : s.content with _ | ⟨e | u, rest⟩ <;> rw [hc] at h hx hleft
      · -- at the end of input it is the end token that is shown and read
        rw [look_nil] at h
        cases i with
        | zero => exact ⟨⟨_, (Option.some.inj hx).symm⟩, fun _ => (Option.some.inj hx).symm.trans h⟩
        | succ i =>
          have hnext : (look i (s.call .read).2.content).1 = .ok t := by
            rw [hleft, entryCall, takeEntry, look_nil]
            exact h
          obtain ⟨hok, hlast⟩ := ih hnext (Nat.le_refl i) hx
          exact ⟨hok, fun _ => hlast rfl⟩
      · rw [look_error] at h
        cases h
      · cases i with
        | zero =>
          refine ⟨⟨u, (Option.some.inj hx).symm⟩, ?_⟩
          rintro rfl
          exact (Option.some.inj hx).symm.trans h
        | succ i =>
          obtain ⟨k, rfl⟩ : ∃ j, k = j + 1 := ⟨k - 1, by omega⟩
          obtain ⟨hok, hlast⟩ := ih (k := k) (by rw [hleft]; exact h) (Nat.le_of_succ_le_succ hi) hx
          exact ⟨hok, fun he => hlast (Nat.succ.inj he)⟩

/-! ## Source texts -/

theorem tokensAmong_source (source : String) : tokensAmong (ofSource source).content = scannedTokens source := by
  have hlines : ∀ lines : List (Except ScanError (List Token)),
      tokensAmong (lines.flatMap lineEntries) = (lines.filterMap Except.toOption).flatten := by
    intro lines
    induction lines with
    | nil => rfl
    | cons line lines ih =>
      rw [List.flatMap_cons, tokensAmong, List.filterMap_append]
      cases line with
      | ok ts =>
        have hline : (lineEntries (.ok ts)).filterMap Except.toOption = ts := by
          rw [lineEntries, List.filterMap_map]
          exact List.filterMap_some
        rw [hline]
        exact congrArg (ts ++ ·) ih
      | error e => exact ih
  exact hlines _

theorem errorsAmong_source (source : String) : errorsAmong (ofSource source).content = badLines source := by
  have hlines : ∀ lines : List (Except ScanError (List Token)),
      errorsAmong (lines.flatMap lineEntries) = lines.filterMap errorOf := by
    intro lines
    induction lines with
    | nil => rfl
    | cons line lines ih =>
      rw [List.flatMap_cons, errorsAmong, List.filterMap_append]
      cases line with
      | ok ts =>
        have hline : (lineEntries (.ok ts)).filterMap errorOf = [] := by
          rw [lineEntries, List.filterMap_map]
          exact List.filterMap_eq_nil_iff.2 fun _ _ => rfl
        rw [hline]
        exact ih
      | error e => exact congrArg (e :: ·) ih
  exact hlines _

theorem length_content (entries : List Entry) :
    entries.length = (tokensAmong entries).length + (errorsAmong entries).length := by
  induction entries with
  | nil => rfl
  | cons entry entries ih =>
    cases entry with
    | ok t => rw [tokensAmong_ok, errorsAmong_ok, List.length_cons, List.length_cons, ih, Nat.add_right_comm]
    | error e => rw [tokensAmong_error, errorsAmong_error, List.length_cons, List.length_cons, ih, Nat.add_assoc]

end TokenStream

open TokenStream

/-- an error says which line it is in -/
theorem scanRest_error_line (line width : Nat) (cs : List Char) :
    ∀ e, scanRest line width cs = .error e → e.line = line := by
  fun_induction scanRest line width cs with
  | case1 cs hd => intro e h; cases h
  | case2 cs c rest hd hn => intro e h; cases h; rfl
  | case3 cs c rest hd item after hn ih =>
    intro e h
    cases hi : item.tokens line with
    | error e' =>
      rw [hi] at h
      cases h
      cases item with
      | digits run =>
        rw [Item.tokens] at hi
        split at hi <;> cases hi
        rfl
      | _ => cases hi
    | ok first =>
      cases ho : scanRest line width after with
      | error e' =>
        rw [hi, ho] at h
        cases h
        exact ih _ ho
      | ok others => rw [hi, ho] at h; cases h

theorem le_line_of_scanAll (first : Nat) (texts : List (List Char)) :
    ∀ e ∈ (scanAll first texts).filterMap errorOf, first ≤ e.line := by
  induction texts generalizing first with
  | nil => exact nofun
  | cons cs texts ih =>
    intro e he
    rw [scanAll] at he
    cases hs : scanLine first cs with
    | ok ts =>
      rw [hs] at he
      exact (Nat.le_succ first).trans (ih (first + 1) e he)
    | error e' =>
      rw [hs] at he
      rcases List.mem_cons.1 he with rfl | he
      · exact Nat.le_of_eq (scanRest_error_line first _ cs e hs).symm
      · exact (Nat.le_succ first).trans (ih (first + 1) e he)

/-- errors are in the order of their lines, and no line has two -/
theorem badLines_pairwise (source : String) : (badLines source).Pairwise fun e e' => e.line < e'.line := by
  have hall : ∀ (texts : List (List Char)) (first : Nat),
      ((scanAll first texts).filterMap errorOf).Pairwise fun e e' => e.line < e'.line := by
    intro texts
    induction texts with
    | nil => exact fun _ => List.Pairwise.nil
    | cons cs texts ih =>
      intro first
      rw [scanAll]
      cases hs : scanLine first cs with
      | ok ts => exact ih (first + 1)
      | error e =>
        refine List.Pairwise.cons (fun e' he' => ?_) (ih (first + 1))
        rw [scanRest_error_line first _ cs e hs]
        exact le_line_of_scanAll (first + 1) texts e' he'
  exact hall _ 1

/-- **Any order of calls sees one stream.** The tokens that are read from a text are those of the lines that scan, in
order, and then the end of input for ever. Errors are reported in the order of their lines, each by one call, and all of
them once enough has been read. After a look `k` tokens ahead that succeeds, with whatever calls between, the next reads
succeed, and the last of `k + 1` gives the token that was shown. -/
theorem interleaved_calls (source : String) (calls : List StreamCall) :
    let s := ofSource source
    let tokens := tokensAmong (reads (transcript calls s))
    tokens = (scannedTokens source).takeD tokens.length Token.inputEnd ∧
      errorsAmong ((transcript calls s).map Prod.snd) <+: badLines source ∧
      (badLines source).Pairwise (fun e e' => e.line < e'.line) ∧
      (∀ n, (scannedTokens source).length + (badLines source).length ≤ n →
        errorsAmong ((transcript (calls ++ List.replicate n .read) s).map Prod.snd) = badLines source) ∧
      ∀ k t, ((s.afterCalls calls).peek k).1 = .ok t →
        ∀ more i x, i ≤ k → (reads (transcript more ((s.afterCalls calls).peek k).2))[i]? = some x →
          (∃ u, x = .ok u) ∧ (i = k → x = .ok t) := by
  refine ⟨?_, ?_, badLines_pairwise source, fun n hn => ?_, fun k t hk more i x hi hx => ?_⟩
  · rw [← tokensAmong_source]
    exact reads_of_transcript calls _
  · rw [← errorsAmong_source]
    exact ⟨_, errors_of_transcript calls _⟩
  · rw [← errorsAmong_source]
    rw [← tokensAmong_source, ← errorsAmong_source, ← length_content] at hn
    exact errors_after_reads calls _ hn
  · have hshown : (look k ((ofSource source).afterCalls calls).content).1 = .ok t := by
      rw [← hk, ← peek_content]
    have hleft : (((ofSource source).afterCalls calls).peek k).2.content =
        (look k ((ofSource source).afterCalls calls).content).2 := by
      rw [← peek_content]
    exact peeked_is_read more (by rw [hleft]; exact look_look hshown k) hi hx

/-- a look over a bad line fails once, and the next one sees the line after it -/
theorem interleaved_calls_over_bad_line :
    ((((ofSource "a\n☃\nb").afterCalls [.peek 2]).peek 2).1 = .ok (Token.identifier 3 "b")) ∧
      ∀ x, (reads (transcript [.read, .peek 7, .read, .read]
          (((ofSource "a\n☃\nb").afterCalls [.peek 2]).peek 2).2))[2]? = some x →
        x = .ok (Token.identifier 3 "b") := by
  have hshown : (((ofSource "a\n☃\nb").afterCalls [.peek 2]).peek 2).1 = .ok (Token.identifier 3 "b") := by
    decide +kernel
  exact ⟨hshown, fun x hx =>
    ((interleaved_calls "a\n☃\nb" [.peek 2]).2.2.2.2 2 _ hshown _ 2 x (Nat.le_refl 2) hx).2 rfl⟩

end Stone
