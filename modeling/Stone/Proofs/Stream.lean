/-
What parsing sees of a stream. `peek` and `read` look at the tokens up to the end of input or to the first line with an
error, and at nothing else: how many of these tokens wait already and how many are still in their lines makes no
difference to actions that are built from the two.

- `Built.run_tokens`: an action that succeeds on a stream gives the same on the bare list of its tokens. Where no line
  has an error, failures agree as well.
- `Built.suffix`: what is left after an action is a last part of what was there.
-/
import Mathlib
import Stone.Program

namespace Stone

namespace TokenStream

/-- the tokens of the lines before the first one with an error -/
def sound : List (Except ScanError (List Token)) → List Token
  | .ok tokens :: more => tokens ++ sound more
  | .error _ :: _ => []
  | [] => []

/-- the tokens that parsing can reach -/
def tokens (s : TokenStream) : List Token := s.waiting ++ sound s.lines

/-- no line to come has an error -/
def Clean (s : TokenStream) : Prop := ∀ line ∈ s.lines, ∃ tokens, line = .ok tokens

/-- the first of these tokens, or the end of input -/
def front (ts : List Token) : Token := ts.head?.getD Token.inputEnd

@[simp] theorem front_nil : front [] = Token.inputEnd := rfl

@[simp] theorem front_cons (t : Token) (ts : List Token) : front (t :: ts) = t := rfl

@[simp] theorem peek_ofTokens (ts : List Token) : (ofTokens ts).peek 0 = (.ok (front ts), ofTokens ts) := by
  cases ts <;> rfl

@[simp] theorem read_ofTokens (ts : List Token) : (ofTokens ts).read = (.ok (front ts), ofTokens ts.tail) := by
  cases ts <;> rfl

/-- what an answer of `peek 0` says about the stream before and after -/
def Shows (s : TokenStream) : Except ScanError Token × TokenStream → Prop
  | (.ok t, s') =>
    t = front s.tokens ∧ s'.tokens = s.tokens ∧ (s'.Clean ↔ s.Clean) ∧ (s'.waiting = [] → s'.lines = [])
  | (.error _, _) => ¬ s.Clean

theorem lookAhead_shows (waiting : List Token) (lines : List (Except ScanError (List Token))) :
    Shows ⟨waiting, lines⟩ (lookAhead 0 waiting lines) := by
  induction lines generalizing waiting with
  | nil =>
    cases waiting <;> simp [lookAhead, Shows, tokens, sound]
  | cons line more ih =>
    unfold lookAhead
    cases waiting with
    | cons t ts => simp [Shows, tokens]
    | nil =>
      cases line with
      | error e => simp [Shows, Clean]
      | ok ts =>
        have h := ih ts
        simp only [List.length_nil, Nat.lt_irrefl, not_false_eq_true, getElem?_neg, List.nil_append]
        revert h
        rcases lookAhead 0 ts more with ⟨_ | _, _⟩ <;> simp [Shows, tokens, sound, Clean]

theorem peek_shows (s : TokenStream) : Shows s (s.peek 0) := lookAhead_shows s.waiting s.lines

/-- a token that waits is the next one -/
theorem peek_cons (t : Token) (waiting : List Token) (lines : List (Except ScanError (List Token))) :
    (TokenStream.mk (t :: waiting) lines).peek 0 = (.ok t, ⟨t :: waiting, lines⟩) := by
  cases lines <;> rfl

/-- looking again shows the same -/
theorem peek_again {s s' : TokenStream} {t : Token} (h : s.peek 0 = (.ok t, s')) : s'.peek 0 = (.ok t, s') := by
  obtain ⟨waiting, lines⟩ := s
  rw [TokenStream.peek] at h
  induction lines generalizing waiting with
  | nil => cases h; rfl
  | cons line lines ih =>
    cases waiting with
    | cons u waiting => cases h; exact peek_cons _ _ _
    | nil =>
      cases line with
      | ok ts => exact ih ts h
      | error e => cases h

end TokenStream

open TokenStream

namespace Parsing

/-- actions that see the stream only through `peek` and `read` -/
inductive Built : {α : Type} → Parsing α → Prop
  | pure {α : Type} (a : α) : Built (pure a : Parsing α)
  | throw {α : Type} (e : Stop ParseError) : Built (throw e : Parsing α)
  | peek : Built peek
  | read : Built read
  | bind {α β : Type} {p : Parsing α} {f : α → Parsing β} : Built p → (∀ a, Built (f a)) → Built (p >>= f)

@[simp] theorem run_fail {α : Type} (e : ParseError) (s : TokenStream) :
    (fail e : Parsing α).run s = .error (.raised e) s := rfl

@[simp] theorem run_peek (ts : List Token) : peek.run (ofTokens ts) = .ok (front ts) (ofTokens ts) := by
  simp [peek, ofStream, EStateM.run]

@[simp] theorem run_read (ts : List Token) : read.run (ofTokens ts) = .ok (front ts) (ofTokens ts.tail) := by
  simp [read, ofStream, EStateM.run]

theorem run_peek_eq (s : TokenStream) :
    Parsing.peek.run s = match s.peek 0 with
      | (.ok t, s') => .ok t s'
      | (.error e, s') => .error (.raised (.scan e)) s' := rfl

theorem run_read_eq (s : TokenStream) :
    Parsing.read.run s = match s.peek 0 with
      | (.ok t, s') => .ok t ⟨s'.waiting.tail, s'.lines⟩
      | (.error e, s') => .error (.raised (.scan e)) s' := by
  simp only [Parsing.read, ofStream, EStateM.run, TokenStream.read]
  rcases s.peek 0 with ⟨_ | _, _⟩ <;> rfl

/-- the same end on the bare tokens; on a stream with an error the bare tokens may fail in another way -/
def AgreesOnTokens {α : Type} (p : Parsing α) (s : TokenStream) : Prop :=
  match p.run s with
  | .ok a s' => p.run (ofTokens s.tokens) = .ok a (ofTokens s'.tokens) ∧ (s'.Clean ↔ s.Clean)
  | .error e s' => s.Clean → p.run (ofTokens s.tokens) = .error e (ofTokens s'.tokens)

theorem agrees_peek (s : TokenStream) : AgreesOnTokens peek s := by
  have h := peek_shows s
  unfold AgreesOnTokens
  rcases hp : s.peek 0 with ⟨_ | t, s'⟩
  · rw [hp] at h
    simp only [peek, ofStream, EStateM.run, hp]
    exact fun hc => absurd hc h
  · rw [hp] at h
    obtain ⟨ht, hs, hc, -⟩ := h
    simp only [run_peek]
    simp only [peek, ofStream, EStateM.run, hp]
    exact ⟨by rw [ht, hs], hc⟩

theorem agrees_read (s : TokenStream) : AgreesOnTokens read s := by
  have h := peek_shows s
  unfold AgreesOnTokens
  rcases hp : s.peek 0 with ⟨_ | t, s'⟩
  · rw [hp] at h
    simp only [read, ofStream, EStateM.run, TokenStream.read, hp]
    exact fun hc => absurd hc h
  · rw [hp] at h
    obtain ⟨ht, hs, hc, hl⟩ := h
    have htail : s.tokens.tail = s'.waiting.tail ++ sound s'.lines := by
      rw [← hs, tokens]
      cases hw : s'.waiting with
      | nil => simp [hl hw, sound]
      | cons t ts => rfl
    simp only [run_read]
    simp only [read, ofStream, EStateM.run, TokenStream.read, hp]
    exact ⟨by rw [ht, htail]; rfl, hc⟩

/-- **Only the tokens count.** What an action gives on a stream it gives on the bare tokens of the stream. -/
theorem Built.run_tokens {α : Type} {p : Parsing α} (h : Built p) (s : TokenStream) : AgreesOnTokens p s := by
  induction h generalizing s with
  | pure a => exact ⟨rfl, Iff.rfl⟩
  | throw e => exact fun _ => rfl
  | peek => exact agrees_peek s
  | read => exact agrees_read s
  | @bind α β p f _ _ ihp ihf =>
    have hp := ihp s
    unfold AgreesOnTokens at hp ⊢
    simp only [EStateM.run_bind]
    cases hr : p.run s with
    | error e s' =>
      rw [hr] at hp
      intro hc
      simp only [hp hc]
    | ok a s' =>
      rw [hr] at hp
      obtain ⟨hp1, hp2⟩ := hp
      simp only [hp1]
      have hf := ihf a s'
      unfold AgreesOnTokens at hf
      cases hq : (f a).run s' with
      | error e s'' =>
        rw [hq] at hf
        exact fun hc => hf (hp2.2 hc)
      | ok b s'' =>
        rw [hq] at hf
        exact ⟨hf.1, hf.2.trans hp2⟩

/-- on bare tokens a success leaves bare tokens, a last part of what was there -/
theorem Built.suffix {α : Type} {p : Parsing α} (h : Built p) {ts : List Token} {a : α} {s : TokenStream}
    (hr : p.run (ofTokens ts) = .ok a s) : ∃ rest, s = ofTokens rest ∧ rest <:+ ts := by
  induction h generalizing ts s with
  | pure a => cases hr; exact ⟨ts, rfl, List.suffix_refl ts⟩
  | throw e => cases hr
  | peek => rw [run_peek] at hr; cases hr; exact ⟨ts, rfl, List.suffix_refl ts⟩
  | read => rw [run_read] at hr; cases hr; exact ⟨ts.tail, rfl, List.tail_suffix ts⟩
  | @bind α β p f _ _ ihp ihf =>
    rw [EStateM.run_bind] at hr
    cases hp : p.run (ofTokens ts) with
    | error e s' => rw [hp] at hr; cases hr
    | ok b s' =>
      rw [hp] at hr
      obtain ⟨mid, rfl, hmid⟩ := ihp hp
      obtain ⟨rest, rfl, hrest⟩ := ihf b hr
      exact ⟨rest, rfl, hrest.trans hmid⟩

end Parsing

end Stone
