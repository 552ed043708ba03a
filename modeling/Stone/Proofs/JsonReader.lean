/-
Reading JSON. The reader takes a text character by character. Its scanner puts characters together to symbols: marks,
strings and natural numbers. Its builder puts symbols together to one value, with a stack of the arrays and objects that
are not closed yet. Blanks between symbols do not count, so texts of every layout are read.

It reads the JSON that trees are written in, which has neither fractions nor signs.

- `scan_string`: a string in quotes is read as the string that was written.
- `Textual.read`: the value that is read from a written text is the value that was written.
-/
import Mathlib.Data.List.Basic
import Stone.Json.Basic

namespace Stone.Json

/-! ## Scanning -/

/-- the pieces of a text -/
inductive Symbol where
  /-- a bracket, a brace, a comma or a colon -/
  | mark (c : Char)
  | string (text : String)
  | natural (n : Nat)
deriving DecidableEq

/-- what the characters so far are the beginning of; strings are kept with their last character first -/
inductive Scanner where
  | between
  | number (n : Nat)
  | inString (done : List Char)
  /-- after a backslash -/
  | escape (done : List Char)
  /-- after a backslash and the letter u, with the digits so far -/
  | code (done digits : List Char)

def isSpace (c : Char) : Bool := c == ' ' || c == '\n' || c == '\r' || c == '\t'

def isMark (c : Char) : Bool := c ∈ ['[', ']', '\x7b', '\x7d', ',', ':']

def digit? (c : Char) : Option Nat := if c.isDigit then some (c.toNat - '0'.toNat) else none

def hexDigit? (c : Char) : Option Nat :=
  if c.isDigit then some (c.toNat - '0'.toNat)
  else if 'a' ≤ c ∧ c ≤ 'f' then some (c.toNat - 'a'.toNat + 10)
  else if 'A' ≤ c ∧ c ≤ 'F' then some (c.toNat - 'A'.toNat + 10)
  else none

/-- the number that hexadecimal digits spell -/
def hexValue? (digits : List Char) : Option Nat := digits.foldlM (fun n c => (hexDigit? c).map (16 * n + ·)) 0

/-- the character that stands after a backslash for another one -/
def escaped? : Char → Option Char
  | '"' => some '"'
  | '\\' => some '\\'
  | '/' => some '/'
  | 'n' => some '\n'
  | 'r' => some '\r'
  | 't' => some '\t'
  | 'b' => some '\x08'
  | 'f' => some '\x0c'
  | _ => none

/-- what a character outside of strings and numbers begins, and the symbol that it is -/
def Scanner.start (c : Char) : Option (Scanner × List Symbol) :=
  if isSpace c then some (.between, [])
  else if isMark c then some (.between, [.mark c])
  else if c = '"' then some (.inString [], [])
  else (digit? c).map fun d => (.number d, [])

/-- takes one character, and gives the symbols that end before it or with it -/
def Scanner.step (s : Scanner) (c : Char) : Option (Scanner × List Symbol) :=
  match s with
  | between => start c
  | number n =>
    match digit? c with
    | some d => some (number (10 * n + d), [])
    | none => (start c).map fun r => (r.1, .natural n :: r.2)
  | inString done =>
    if c = '"' then some (between, [.string (String.ofList done.reverse)])
    else if c = '\\' then some (escape done, [])
    else some (inString (c :: done), [])
  | escape done =>
    if c = 'u' then some (code done [], [])
    else (escaped? c).map fun e => (inString (e :: done), [])
  | code done digits =>
    if digits.length = 3 then (hexValue? (digits ++ [c])).map fun n => (inString (Char.ofNat n :: done), [])
    else some (code done (digits ++ [c]), [])

/-- the symbol that the end of a text ends -/
def Scanner.finish : Scanner → Option (List Symbol)
  | between => some []
  | number n => some [.natural n]
  | _ => none

/-! ## Building -/

/-- an array or an object that is not closed yet, with what it has so far, the last first -/
inductive Frame where
  | array (items : List Json)
  | object (fields : List (String × Json)) (key : String)

/-- what is open, from the inside out, and what may come next -/
inductive Builder where
  /-- a value -/
  | value (frames : List Frame)
  /-- the first item of an array, or its end -/
  | firstItem (frames : List Frame)
  /-- the first key of an object, or its end -/
  | firstKey (frames : List Frame)
  /-- a further key -/
  | key (frames : List Frame) (fields : List (String × Json))
  | colon (frames : List Frame) (fields : List (String × Json)) (key : String)
  /-- what follows a value that is there -/
  | after (frames : List Frame) (j : Json)

/-- a symbol that is a value or begins one -/
def Builder.begin (frames : List Frame) : Symbol → Option Builder
  | .string s => some (after frames (.string s))
  | .natural n => some (after frames (.integer n))
  | .mark '[' => some (firstItem frames)
  | .mark '\x7b' => some (firstKey frames)
  | .mark _ => none

/-- takes one symbol -/
def Builder.feed : Builder → Symbol → Option Builder
  | value frames, symbol => begin frames symbol
  | firstItem frames, .mark ']' => some (after frames (.array []))
  | firstItem frames, symbol => begin (.array [] :: frames) symbol
  | firstKey frames, .mark '\x7d' => some (after frames (.object []))
  | firstKey frames, .string k => some (colon frames [] k)
  | key frames fields, .string k => some (colon frames fields k)
  | colon frames fields k, .mark ':' => some (value (.object fields k :: frames))
  | after (.array items :: frames) j, .mark ',' => some (value (.array (j :: items) :: frames))
  | after (.array items :: frames) j, .mark ']' => some (after frames (.array (j :: items).reverse))
  | after (.object fields k :: frames) j, .mark ',' => some (key frames ((k, j) :: fields))
  | after (.object fields k :: frames) j, .mark '\x7d' => some (after frames (.object ((k, j) :: fields).reverse))
  | _, _ => none

/-! ## Reading -/

/-- the builder after a text -/
def scan (s : Scanner) (b : Builder) : List Char → Option Builder
  | [] => s.finish.bind fun symbols => symbols.foldlM Builder.feed b
  | c :: rest =>
    match s.step c with
    | none => none
    | some (s', symbols) => (symbols.foldlM Builder.feed b).bind fun b' => scan s' b' rest

/-- the value that a text spells -/
def read? (text : String) : Option Json :=
  match scan .between (.value []) text.toList with
  | some (.after [] j) => some j
  | _ => none

/-! ## Symbols -/

section Symbols

variable {b : Builder} {c : Char} {rest : List Char}

/-- a character that ends no symbol -/
theorem scan_quiet {s t : Scanner} (h : s.step c = some (t, [])) : scan s b (c :: rest) = scan t b rest := by
  rw [scan, h]
  rfl

/-- a character that ends a symbol -/
theorem scan_symbol {s t : Scanner} {symbol : Symbol} (h : s.step c = some (t, [symbol])) :
    scan s b (c :: rest) = (b.feed symbol).bind fun b' => scan t b' rest := by
  rw [scan, h]
  simp [List.foldlM]

theorem scan_space (hc : isSpace c = true) : scan .between b (c :: rest) = scan .between b rest :=
  scan_quiet (by rw [Scanner.step, Scanner.start, if_pos hc])

theorem scan_spaces {cs : List Char} (hcs : ∀ c ∈ cs, isSpace c = true) :
    scan .between b (cs ++ rest) = scan .between b rest := by
  induction cs with
  | nil => rfl
  | cons c cs ih =>
    obtain ⟨hc, hcs⟩ := List.forall_mem_cons.1 hcs
    rw [List.cons_append, scan_space hc, ih hcs]

theorem scan_mark (hc : isMark c = true) :
    scan .between b (c :: rest) = (b.feed (.mark c)).bind fun b' => scan .between b' rest := by
  have hspace : isSpace c = false := by
    simp only [isMark, List.mem_cons, List.not_mem_nil, or_false, decide_eq_true_eq] at hc
    rcases hc with rfl | rfl | rfl | rfl | rfl | rfl <;> rfl
  refine scan_symbol ?_
  rw [Scanner.step, Scanner.start, if_neg (by simp [hspace]), if_pos hc]

/-! ### Strings -/

/-- the digits of control characters -/
theorem hexFour_control : ∀ n < 32, (hexFour n).length = 4 ∧ hexValue? (hexFour n) = some n := by decide

/-- one character as it stands in a string -/
theorem scan_stringChar (done : List Char) (c : Char) :
    scan (.inString done) b (stringChar c ++ rest) = scan (.inString (c :: done)) b rest := by
  have hpair : ∀ e : Char, e ≠ 'u' → escaped? e = some c →
      scan (.inString done) b ('\\' :: e :: rest) = scan (.inString (c :: done)) b rest := by
    intro e hu he
    rw [scan_quiet (t := .escape done) rfl]
    refine scan_quiet ?_
    rw [Scanner.step, if_neg hu, he]
    rfl
  have hchar : ∀ n, c.toNat = n → c = Char.ofNat n := by
    intro n hn
    rw [← hn, Char.ofNat_toNat]
  unfold stringChar
  split_ifs with h1 h2 h3 h4 h5 h6 h7 h8
  · exact hpair '"' (by decide) (by rw [h1]; rfl)
  · exact hpair '\\' (by decide) (by rw [h2]; rfl)
  · exact hpair 'n' (by decide) (by rw [h3]; rfl)
  · exact hpair 'r' (by decide) (by rw [h4]; rfl)
  · exact hpair 't' (by decide) (by rw [h5]; rfl)
  · exact hpair 'b' (by decide) (by rw [hchar 8 h6]; rfl)
  · exact hpair 'f' (by decide) (by rw [hchar 12 h7]; rfl)
  · -- a control character, by its four digits
    obtain ⟨hlength, hvalue⟩ := hexFour_control c.toNat h8
    match hexFour c.toNat, hlength, hvalue with
    | [p, q, r, s], _, hvalue =>
      simp only [List.cons_append, List.nil_append]
      rw [scan_quiet (t := .escape done) rfl, scan_quiet (t := .code done []) rfl,
        scan_quiet (t := .code done [p]) rfl, scan_quiet (t := .code done [p, q]) rfl,
        scan_quiet (t := .code done [p, q, r]) rfl]
      refine scan_quiet ?_
      rw [Scanner.step, if_pos (show [p, q, r].length = 3 from rfl)]
      simp only [List.cons_append, List.nil_append, hvalue, Option.map_some, Char.ofNat_toNat]
  · refine scan_quiet ?_
    rw [Scanner.step, if_neg h1, if_neg h2]

/-- **A string in quotes** is the string that was written. -/
theorem scan_string (s : String) :
    scan .between b (stringChars s ++ rest) = (b.feed (.string s)).bind fun b' => scan .between b' rest := by
  have hchars : ∀ cs done : List Char, scan (.inString done) b (cs.flatMap stringChar ++ '"' :: rest) =
      scan (.inString (cs.reverse ++ done)) b ('"' :: rest) := by
    intro cs
    induction cs with
    | nil => exact fun _ => rfl
    | cons c cs ih =>
      intro done
      rw [List.flatMap_cons, List.append_assoc, scan_stringChar, ih]
      simp
  rw [stringChars, List.append_assoc, List.cons_append, List.singleton_append, scan_quiet (t := .inString []) rfl,
    hchars, List.append_nil]
  refine scan_symbol ?_
  rw [Scanner.step, if_pos rfl, List.reverse_reverse, String.ofList_toList]

/-! ### Numbers -/

/-- what may follow a number -/
def Apart (rest : List Char) : Prop := ∀ c, rest.head? = some c → c.isDigit = false

theorem scan_digits {ds : List Char} (hds : ∀ c ∈ ds, c.isDigit = true) (n : Nat) :
    scan (.number n) b (ds ++ rest) = scan (.number (Nat.ofDigitChars 10 ds n)) b rest := by
  induction ds generalizing n with
  | nil => rfl
  | cons d ds ih =>
    obtain ⟨hd, hds⟩ := List.forall_mem_cons.1 hds
    rw [List.cons_append, Nat.ofDigitChars_cons, ← ih hds]
    refine scan_quiet ?_
    rw [Scanner.step, digit?, if_pos hd]

/-- a number ends before a character that is no digit -/
theorem scan_number (hrest : Apart rest) (n : Nat) :
    scan (.number n) b rest = (b.feed (.natural n)).bind fun b' => scan .between b' rest := by
  cases rest with
  | nil => simp [scan, Scanner.finish, List.foldlM]
  | cons c rest =>
    have hdigit : digit? c = none := if_neg (by simp [hrest c rfl])
    rw [scan, Scanner.step, hdigit]
    cases hstart : Scanner.start c with
    | none => cases hfeed : b.feed (.natural n) <;> simp [scan, Scanner.step, hstart]
    | some r => simp [scan, Scanner.step, hstart, List.foldlM, Option.bind_assoc]

/-- a digit begins a number -/
theorem start_digit {d : Char} (hd : d.isDigit = true) :
    Scanner.start d = some (.number (d.toNat - '0'.toNat), []) := by
  have hother : ∀ c : Char, c.isDigit = false → d ≠ c := by
    rintro c hc rfl
    exact Bool.false_ne_true (hc.symm.trans hd)
  have hspace : ¬isSpace d = true := by
    simp only [isSpace, Bool.or_eq_true, beq_iff_eq]
    rintro (((h | h) | h) | h) <;> exact hother _ rfl h
  have hmark : ¬isMark d = true := by
    simp only [isMark, List.mem_cons, List.not_mem_nil, or_false, decide_eq_true_eq]
    rintro (h | h | h | h | h | h) <;> exact hother _ rfl h
  rw [Scanner.start, if_neg hspace, if_neg hmark, if_neg (hother '"' rfl), digit?, if_pos hd]
  rfl

/-- **The digits of a natural number** are this number, if no further digit follows them. -/
theorem scan_natural (hrest : Apart rest) (n : Nat) :
    scan .between b (integerChars n ++ rest) = (b.feed (.natural n)).bind fun b' => scan .between b' rest := by
  have hdigits : ∀ c ∈ Nat.toDigits 10 n, c.isDigit = true := fun c hc =>
    Nat.isDigit_of_mem_toDigits (by omega) (by omega) hc
  have hvalue : Nat.ofDigitChars 10 (Nat.toDigits 10 n) 0 = n := Nat.ofDigitChars_ten_toDigits
  rw [integerChars, if_neg (by simp), Int.natAbs_natCast]
  match hds : Nat.toDigits 10 n with
  | [] => exact absurd hds Nat.toDigits_ne_nil
  | d :: ds =>
    rw [hds] at hdigits hvalue
    obtain ⟨hd, hdigits⟩ := List.forall_mem_cons.1 hdigits
    rw [Nat.ofDigitChars_cons] at hvalue
    rw [List.cons_append, scan_quiet (s := .between) (start_digit hd), scan_digits hdigits, scan_number hrest, ← hvalue]
    simp

end Symbols

/-! ## Written values -/

/-- nothing but blanks stands between the parts of a text -/
structure Layout.Blank (l : Layout) : Prop where
  lineStart : ∀ level, ∀ c ∈ l.lineStart level, isSpace c = true
  colon : ∃ blanks, l.colon = ':' :: blanks ∧ ∀ c ∈ blanks, isSpace c = true

theorem Layout.compact_blank : Layout.compact.Blank where
  lineStart := fun _ => List.forall_mem_nil _
  colon := ⟨[], rfl, List.forall_mem_nil _⟩

theorem Layout.indented_blank : Layout.indented.Blank where
  lineStart := fun level => List.forall_mem_cons.2 ⟨rfl, fun _ hc => by rw [List.eq_of_mem_replicate hc]; rfl⟩
  colon := ⟨[' '], rfl, List.forall_mem_singleton.2 rfl⟩

/-- the values that the reader knows -/
inductive Textual : Json → Prop
  | natural (n : Nat) : Textual (.integer n)
  | string (s : String) : Textual (.string s)
  | array {items : List Json} (h : ∀ j ∈ items, Textual j) : Textual (.array items)
  | object {fields : List (String × Json)} (h : ∀ field ∈ fields, Textual field.2) : Textual (.object fields)

/-- a value may come next; the first item of an array may be its end as well -/
def Builder.Awaits (b : Builder) (frames : List Frame) : Prop :=
  ∀ symbol, symbol ≠ .mark ']' → b.feed symbol = Builder.begin frames symbol

theorem Builder.value_awaits (frames : List Frame) : (value frames).Awaits frames := fun _ _ => rfl

theorem Builder.firstItem_awaits (frames : List Frame) : (firstItem frames).Awaits (.array [] :: frames) := by
  intro symbol hsymbol
  match symbol, hsymbol with
  | .mark c, hc =>
    have hend : c ≠ ']' := fun h => hc (congrArg Symbol.mark h)
    rw [Builder.feed.eq_3 _ _ (by simpa using hend)]
  | .string _, _ => rfl
  | .natural _, _ => rfl

/-- the text of a value leads to this value, wherever a value may come -/
def Readable (l : Layout) (j : Json) : Prop :=
  ∀ (level : Nat) (b : Builder) (frames : List Frame) (tail : List Char), b.Awaits frames → Apart tail →
    scan .between b (write l level j tail) = scan .between (.after frames j) tail

section Parts

variable {l : Layout} {level : Nat} {frames : List Frame} {tail blanks : List Char}

/-- blanks and a mark may follow a number -/
theorem Apart.of_blanks {c : Char} (hblanks : ∀ c ∈ blanks, isSpace c = true) (hc : c.isDigit = false) :
    Apart (blanks ++ c :: tail) := by
  cases blanks with
  | nil => rintro _ ⟨rfl⟩; exact hc
  | cons d ds =>
    rintro _ ⟨rfl⟩
    have hd := hblanks d (by simp)
    simp only [isSpace, Bool.or_eq_true, beq_iff_eq] at hd
    rcases hd with ((rfl | rfl) | rfl) | rfl <;> rfl

/-- so may further parts and the end of an array or an object -/
theorem items_apart (hblanks : ∀ c ∈ blanks, isSpace c = true) (more : List Json) :
    Apart (writeItems l level more (blanks ++ ']' :: tail)) := by
  cases more with
  | nil => exact Apart.of_blanks hblanks rfl
  | cons _ _ => rintro _ ⟨rfl⟩; rfl

theorem fields_apart (hblanks : ∀ c ∈ blanks, isSpace c = true) (more : List (String × Json)) :
    Apart (writeFields l level more (blanks ++ '\x7d' :: tail)) := by
  cases more with
  | nil => exact Apart.of_blanks hblanks rfl
  | cons _ _ => rintro _ ⟨rfl⟩; rfl

/-- the further items of an array and its end -/
theorem scan_items (hl : l.Blank) (hblanks : ∀ c ∈ blanks, isSpace c = true) {more : List Json}
    (hmore : ∀ j ∈ more, Readable l j) (done : List Json) (j : Json) :
    scan .between (.after (.array done :: frames) j) (writeItems l level more (blanks ++ ']' :: tail)) =
      scan .between (.after frames (.array (done.reverse ++ j :: more))) tail := by
  induction more generalizing done j with
  | nil =>
    rw [writeItems, scan_spaces hblanks, scan_mark rfl]
    simp [Builder.feed]
  | cons next more ih =>
    obtain ⟨hnext, hmore⟩ := List.forall_mem_cons.1 hmore
    calc scan .between (.after (.array done :: frames) j)
          (writeItems l level (next :: more) (blanks ++ ']' :: tail))
        = scan .between (.value (.array (j :: done) :: frames))
            (write l level next (writeItems l level more (blanks ++ ']' :: tail))) := by
          rw [writeItems, List.cons_append, scan_mark rfl]
          exact scan_spaces (hl.lineStart level)
      _ = scan .between (.after (.array (j :: done) :: frames) next)
            (writeItems l level more (blanks ++ ']' :: tail)) :=
          hnext level _ _ _ (Builder.value_awaits _) (items_apart hblanks more)
      _ = scan .between (.after frames (.array (done.reverse ++ j :: next :: more))) tail := by
          rw [ih hmore, List.reverse_cons, List.append_assoc, List.singleton_append]

/-- a key, what follows it, and its value -/
theorem scan_field (hl : l.Blank) {b : Builder} {done : List (String × Json)} {key : String} {j : Json}
    (hj : Readable l j) (hb : b.feed (.string key) = some (.colon frames done key)) (hapart : Apart tail) :
    scan .between b (stringChars key ++ l.colon ++ write l level j tail) =
      scan .between (.after (.object done key :: frames) j) tail := by
  obtain ⟨blanks, hcolon, hblanks⟩ := hl.colon
  rw [List.append_assoc, scan_string, hb, Option.bind_some, hcolon, List.cons_append, scan_mark rfl]
  exact (scan_spaces hblanks).trans (hj level _ _ _ (Builder.value_awaits _) hapart)

/-- the further fields of an object and its end -/
theorem scan_fields (hl : l.Blank) (hblanks : ∀ c ∈ blanks, isSpace c = true) {more : List (String × Json)}
    (hmore : ∀ field ∈ more, Readable l field.2) (done : List (String × Json)) (key : String) (j : Json) :
    scan .between (.after (.object done key :: frames) j) (writeFields l level more (blanks ++ '\x7d' :: tail)) =
      scan .between (.after frames (.object (done.reverse ++ (key, j) :: more))) tail := by
  induction more generalizing done key j with
  | nil =>
    rw [writeFields, scan_spaces hblanks, scan_mark rfl]
    simp [Builder.feed]
  | cons next more ih =>
    obtain ⟨hnext, hmore⟩ := List.forall_mem_cons.1 hmore
    calc scan .between (.after (.object done key :: frames) j)
          (writeFields l level (next :: more) (blanks ++ '\x7d' :: tail))
        = scan .between (.key frames ((key, j) :: done))
            (stringChars next.1 ++ l.colon ++
              write l level next.2 (writeFields l level more (blanks ++ '\x7d' :: tail))) := by
          rw [writeFields, List.append_assoc, List.append_assoc, List.cons_append, scan_mark rfl, List.append_assoc]
          exact scan_spaces (hl.lineStart level)
      _ = scan .between (.after (.object ((key, j) :: done) next.1 :: frames) next.2)
            (writeFields l level more (blanks ++ '\x7d' :: tail)) :=
          scan_field hl hnext rfl (fields_apart hblanks more)
      _ = scan .between (.after frames (.object (done.reverse ++ (key, j) :: next :: more))) tail := by
          rw [ih hmore, List.reverse_cons, List.append_assoc, List.singleton_append]

end Parts

/-- every value of this kind can be read, in each layout with nothing but blanks -/
theorem Textual.readable {l : Layout} (hl : l.Blank) {j : Json} (h : Textual j) : Readable l j := by
  induction h with
  | natural n =>
    intro level b frames tail hb htail
    rw [write, scan_natural htail, hb _ (by simp)]
    rfl
  | string s =>
    intro level b frames tail hb _
    rw [write, scan_string, hb _ (by simp)]
    rfl
  | @array items _ ih =>
    intro level b frames tail hb _
    have hopen : b.feed (.mark '[') = some (.firstItem frames) := hb _ (by simp)
    cases items with
    | nil =>
      rw [write, scan_mark rfl, hopen, Option.bind_some, scan_mark rfl]
      rfl
    | cons j more =>
      obtain ⟨hj, hmore⟩ := List.forall_mem_cons.1 ih
      rw [write, List.cons_append, scan_mark rfl, hopen, Option.bind_some, scan_spaces (hl.lineStart _),
        hj _ _ _ _ (Builder.firstItem_awaits frames) (items_apart (hl.lineStart level) more)]
      exact scan_items hl (hl.lineStart level) hmore [] j
  | @object fields _ ih =>
    intro level b frames tail hb _
    have hopen : b.feed (.mark '\x7b') = some (.firstKey frames) := hb _ (by simp)
    cases fields with
    | nil =>
      rw [write, scan_mark rfl, hopen, Option.bind_some, scan_mark rfl]
      rfl
    | cons field more =>
      obtain ⟨hj, hmore⟩ := List.forall_mem_cons.1 ih
      rw [write, List.append_assoc, List.append_assoc, List.cons_append, scan_mark rfl, hopen, Option.bind_some,
        scan_spaces (hl.lineStart _), ← List.append_assoc,
        scan_field hl hj rfl (fields_apart (hl.lineStart level) more)]
      exact scan_fields hl (hl.lineStart level) hmore [] field.1 field.2

/-- **The value that is read from a written text** is the value that was written. -/
theorem Textual.read {l : Layout} (hl : l.Blank) {j : Json} (h : Textual j) : read? (j.text l) = some j := by
  rw [read?, Json.text, String.toList_ofList,
    h.readable hl 0 _ [] [] (Builder.value_awaits []) (fun _ h => nomatch h)]
  rfl

end Stone.Json
