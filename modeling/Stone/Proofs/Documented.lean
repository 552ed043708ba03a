/-
The documented grammar. It says which tokens make a statement, and not how they are read:

    primary   : ( "(" expr ")" | NUMBER | IDENTIFIER | STRING ) { postfix }
    postfix   : "(" [ args ] ")"
    factor    : "-" primary | primary
    expr      : factor { OP factor }
    args      : expr { "," expr }
    simple    : expr [ args ]
    statement : "if" expr block [ "else" block ] | "while" expr block | simple
    block     : "{" [ statement ] { (";" | EOL) [ statement ] } "}"
    param_list: "(" [ param { "," param } ] ")"
    def       : "def" IDENTIFIER param_list block
    program   : [ def | statement ] (";" | EOL)

`Phrase` has the rules for expressions, `Clause` those for statements. Both count how deep rules nest, in the way in
which parsing nests them.

The grammar is ambiguous where arguments stand without parentheses: if the first of them begins with a parenthesis or a
minus sign, it could be a call or an operand of what comes before it, and parsing takes it for that. Then a comma comes
next, which parsing takes for a name. `Clause.clarified` gives such statements the form in which they are read.
-/
import Stone.Proofs.RoundTrip

namespace Stone

open TokenStream Grammar

/-! ## Expressions -/

/-- the parts of expressions; arguments come with the first tokens of each of them -/
inductive PhraseKind where
  | primary
  /-- `{ postfix }` -/
  | calls
  /-- `postfix` -/
  | call
  | factor
  /-- `{ OP factor }` -/
  | operations
  | expr
  | args (firsts : List Token)
  /-- `{ "," expr }` -/
  | moreArgs (firsts : List Token)

/-- these tokens are such a part of an expression, with rules nested at most so deep; `name` are the identifiers -/
inductive Phrase (name : Token → Prop) : Nat → PhraseKind → List Token → Prop
  | grouped {n : Nat} {o c : Token} {ts us : List Token} : o.isLiteral "(" = true → Phrase name n .expr ts →
      c.isLiteral ")" = true → Phrase name (n + 1) .calls us → Phrase name (n + 2) .primary (o :: (ts ++ c :: us))
  | number {n : Nat} {t : Token} {us : List Token} : TokenClass.number.accepts t = true →
      Phrase name (n + 1) .calls us → Phrase name (n + 2) .primary (t :: us)
  | name {n : Nat} {t : Token} {us : List Token} : name t →
      Phrase name (n + 1) .calls us → Phrase name (n + 2) .primary (t :: us)
  | string {n : Nat} {t : Token} {us : List Token} : TokenClass.string.accepts t = true →
      Phrase name (n + 1) .calls us → Phrase name (n + 2) .primary (t :: us)
  | noCalls {n : Nat} : Phrase name n .calls []
  | moreCalls {n : Nat} {ts us : List Token} : Phrase name n .call ts → Phrase name n .calls us →
      Phrase name n .calls (ts ++ us)
  | emptyCall {n : Nat} {o c : Token} : o.isLiteral "(" = true → c.isLiteral ")" = true →
      Phrase name (n + 2) .call [o, c]
  | call {n : Nat} {o c : Token} {firsts ts : List Token} : o.isLiteral "(" = true → Phrase name n (.args firsts) ts →
      c.isLiteral ")" = true → Phrase name (n + 1) .call (o :: (ts ++ [c]))
  | negative {n : Nat} {m : Token} {ts : List Token} : m.isLiteral "-" = true → Phrase name n .primary ts →
      Phrase name (n + 2) .factor (m :: ts)
  | factor {n : Nat} {ts : List Token} : Phrase name n .primary ts → Phrase name (n + 1) .factor ts
  | noOperation {n : Nat} : Phrase name n .operations []
  | operation {n : Nat} {op : Token} {ts us : List Token} : (operatorOf .standard op).isSome = true →
      Phrase name n .factor ts → Phrase name n .operations us → Phrase name n .operations (op :: (ts ++ us))
  | expr {n : Nat} {ts us : List Token} : Phrase name n .factor ts → Phrase name n .operations us →
      Phrase name (n + 1) .expr (ts ++ us)
  | noMoreArgs {n : Nat} : Phrase name n (.moreArgs []) []
  | moreArgs {n : Nat} {c : Token} {firsts ts us : List Token} : c.isLiteral "," = true → Phrase name n .expr ts →
      Phrase name (n + 1) (.moreArgs firsts) us → Phrase name (n + 1) (.moreArgs (front ts :: firsts)) (c :: (ts ++ us))
  | args {n : Nat} {firsts ts us : List Token} : Phrase name n .expr ts → Phrase name n (.moreArgs firsts) us →
      Phrase name (n + 1) (.args (front ts :: firsts)) (ts ++ us)

/-! ## Statements -/

/-- the parts of statements -/
inductive ClauseKind where
  | simple
  | statement
  /-- `[ statement ]` -/
  | perhaps
  /-- `{ (";" | EOL) [ statement ] }` -/
  | following
  | block
  /-- `{ "," param }` -/
  | moreParams
  | paramList
  | definition
  | program

/-- a word that is no keyword: these are the identifiers -/
def Token.isWord (t : Token) : Bool :=
  match t.lexeme with
  | .identifier s => isOrdinary s
  | _ => false

/-- the end of a statement -/
def Token.isSeparator (t : Token) : Bool := [";", Token.lineEndText].any t.isLiteral

/-- these tokens are such a part of a statement, with rules nested at most so deep. Arguments without parentheses must
be such that `admits` allows the first tokens of each of them. -/
inductive Clause (name : Token → Prop) (admits : List Token → Prop) : Nat → ClauseKind → List Token → Prop
  | expr {n : Nat} {ts : List Token} : Phrase name n .expr ts → Clause name admits (n + 1) .simple ts
  | command {n : Nat} {firsts ts us : List Token} : Phrase name n .expr ts → Phrase name n (.args firsts) us →
      admits firsts → Clause name admits (n + 1) .simple (ts ++ us)
  | conditional {n : Nat} {i : Token} {ts us : List Token} : i.isLiteral "if" = true → Phrase name n .expr ts →
      Clause name admits n .block us → Clause name admits (n + 2) .statement (i :: (ts ++ us))
  | alternative {n : Nat} {i e : Token} {ts us vs : List Token} : i.isLiteral "if" = true →
      Phrase name (n + 1) .expr ts → Clause name admits (n + 1) .block us → e.isLiteral "else" = true →
      Clause name admits n .block vs → Clause name admits (n + 3) .statement (i :: (ts ++ (us ++ e :: vs)))
  | loop {n : Nat} {w : Token} {ts us : List Token} : w.isLiteral "while" = true → Phrase name n .expr ts →
      Clause name admits n .block us → Clause name admits (n + 2) .statement (w :: (ts ++ us))
  | simple {n : Nat} {ts : List Token} : Clause name admits n .simple ts → Clause name admits (n + 1) .statement ts
  | nothing {n : Nat} : Clause name admits n .perhaps []
  | something {n : Nat} {ts : List Token} : Clause name admits n .statement ts → Clause name admits n .perhaps ts
  | noFollowing {n : Nat} : Clause name admits n .following []
  | following {n : Nat} {t : Token} {ts us : List Token} : t.isSeparator = true → Clause name admits n .perhaps ts →
      Clause name admits (n + 1) .following us → Clause name admits (n + 1) .following (t :: (ts ++ us))
  | block {n : Nat} {o c : Token} {ts us : List Token} : o.isLiteral "\x7b" = true → Clause name admits n .perhaps ts →
      Clause name admits n .following us → c.isLiteral "\x7d" = true →
      Clause name admits (n + 1) .block (o :: (ts ++ (us ++ [c])))
  | noMoreParams {n : Nat} : Clause name admits n .moreParams []
  | moreParams {n : Nat} {c p : Token} {us : List Token} : c.isLiteral "," = true → name p →
      Clause name admits (n + 2) .moreParams us → Clause name admits (n + 2) .moreParams (c :: p :: us)
  | noParams {n : Nat} {o c : Token} : o.isLiteral "(" = true → c.isLiteral ")" = true →
      Clause name admits (n + 2) .paramList [o, c]
  | params {n : Nat} {o c p : Token} {us : List Token} : o.isLiteral "(" = true → name p →
      Clause name admits (n + 1) .moreParams us → c.isLiteral ")" = true →
      Clause name admits (n + 3) .paramList (o :: p :: (us ++ [c]))
  | definition {n : Nat} {d f : Token} {ts us : List Token} : d.isLiteral "def" = true → name f →
      Clause name admits n .paramList ts → Clause name admits n .block us →
      Clause name admits (n + 1) .definition (d :: f :: (ts ++ us))
  | empty {n : Nat} {t : Token} : t.isSeparator = true → Clause name admits (n + 2) .program [t]
  | defined {n : Nat} {t : Token} {ts : List Token} : Clause name admits n .definition ts → t.isSeparator = true →
      Clause name admits (n + 1) .program (ts ++ [t])
  | stated {n : Nat} {t : Token} {ts : List Token} : Clause name admits n .statement ts → t.isSeparator = true →
      Clause name admits (n + 1) .program (ts ++ [t])

/-! ## Expressions that go on -/

/-- a literal that is no line end is an identifier -/
theorem eq_identifier {t : Token} {s : String} (hs : s ≠ Token.lineEndText) (h : t.isLiteral s = true) :
    ∃ line, t = Token.identifier line s := by
  obtain ⟨line, x⟩ := t
  cases x with
  | identifier u =>
    obtain rfl : u = s := by simpa [Token.isLiteral] using h
    exact ⟨line, rfl⟩
  | lineEnd => exact absurd (by simpa [Token.isLiteral] using h) (Ne.symm hs)
  | _ => cases h

/-- an expression that begins with this token can be read as a part of the expression before it -/
def continues (t : Token) : Bool := t.isLiteral "(" || t.isLiteral "-"

/-- numbers and strings go on with nothing -/
theorem continues_of_accepts {cls : TokenClass} {t : Token} (h : cls.accepts t = true)
    (hcls : cls = .number ∨ cls = .string) : continues t = false := by
  obtain ⟨line, x⟩ := t
  rcases hcls with rfl | rfl <;> cases x <;> first | rfl | cases h

namespace Phrase

variable {name name' : Token → Prop} {n m : Nat} {kind : PhraseKind} {ts us : List Token}

/-- more room for nesting and more names do no harm -/
theorem mono (h : Phrase name n kind ts) (hn : ∀ t, name t → name' t) (hm : n ≤ m) : Phrase name' m kind ts := by
  have hone : ∀ {k m : Nat}, k + 1 ≤ m → ∃ j, m = j + 1 ∧ k ≤ j := fun {k m} h => ⟨m - 1, by omega⟩
  have htwo : ∀ {k m : Nat}, k + 2 ≤ m → ∃ j, m = j + 2 ∧ k ≤ j := fun {k m} h => ⟨m - 2, by omega⟩
  induction h generalizing m with
  | grouped ho _ hc _ ih1 ih2 =>
    obtain ⟨j, rfl, hj⟩ := htwo hm
    exact .grouped ho (ih1 hj) hc (ih2 (Nat.succ_le_succ hj))
  | number ha _ ih =>
    obtain ⟨j, rfl, hj⟩ := htwo hm
    exact .number ha (ih (Nat.succ_le_succ hj))
  | name ha _ ih =>
    obtain ⟨j, rfl, hj⟩ := htwo hm
    exact .name (hn _ ha) (ih (Nat.succ_le_succ hj))
  | string ha _ ih =>
    obtain ⟨j, rfl, hj⟩ := htwo hm
    exact .string ha (ih (Nat.succ_le_succ hj))
  | noCalls => exact .noCalls
  | moreCalls _ _ ih1 ih2 => exact .moreCalls (ih1 hm) (ih2 hm)
  | emptyCall ho hc =>
    obtain ⟨j, rfl, -⟩ := htwo hm
    exact .emptyCall ho hc
  | call ho _ hc ih =>
    obtain ⟨j, rfl, hj⟩ := hone hm
    exact .call ho (ih hj) hc
  | negative hs _ ih =>
    obtain ⟨j, rfl, hj⟩ := htwo hm
    exact .negative hs (ih hj)
  | factor _ ih =>
    obtain ⟨j, rfl, hj⟩ := hone hm
    exact .factor (ih hj)
  | noOperation => exact .noOperation
  | operation ho _ _ ih1 ih2 => exact .operation ho (ih1 hm) (ih2 hm)
  | expr _ _ ih1 ih2 =>
    obtain ⟨j, rfl, hj⟩ := hone hm
    exact .expr (ih1 hj) (ih2 hj)
  | noMoreArgs => exact .noMoreArgs
  | moreArgs hc _ _ ih1 ih2 =>
    obtain ⟨j, rfl, hj⟩ := hone hm
    exact .moreArgs hc (ih1 hj) (ih2 hm)
  | args _ _ ih1 ih2 =>
    obtain ⟨j, rfl, hj⟩ := hone hm
    exact .args (ih1 hj) (ih2 hj)

theorem wider (h : Phrase name n kind ts) (hm : n ≤ m) : Phrase name m kind ts := h.mono (fun _ ht => ht) hm

theorem calls_append (h : Phrase name n .calls ts) (hu : Phrase name n .calls us) :
    Phrase name n .calls (ts ++ us) := by
  generalize hk : PhraseKind.calls = kind at h
  induction h with
  | noCalls => exact hu
  | moreCalls h1 _ _ ih =>
    rw [List.append_assoc]
    exact .moreCalls h1 (ih hu hk)
  | _ => cases hk

theorem operations_append (h : Phrase name n .operations ts) (hu : Phrase name n .operations us) :
    Phrase name n .operations (ts ++ us) := by
  generalize hk : PhraseKind.operations = kind at h
  induction h with
  | noOperation => exact hu
  | operation ho h1 _ _ ih =>
    rw [List.cons_append, List.append_assoc]
    exact .operation ho h1 (ih hu hk)
  | _ => cases hk

/-- further calls on an operand -/
theorem primary_calls (h : Phrase name (n + 1) .primary ts) (hu : Phrase name n .calls us) :
    Phrase name (n + 1) .primary (ts ++ us) := by
  cases h with
  | grouped ho h1 hc h2 =>
    rw [List.cons_append, List.append_assoc, List.cons_append]
    exact .grouped ho h1 hc (h2.calls_append hu)
  | number ha h => exact .number ha (h.calls_append hu)
  | name ha h => exact .name ha (h.calls_append hu)
  | string ha h => exact .string ha (h.calls_append hu)

/-- calls on the operand of a factor; after a sign there is less room for them -/
theorem factor_calls (h : Phrase name (n + 3) .factor ts) (hu : Phrase name n .calls us) :
    Phrase name (n + 3) .factor (ts ++ us) := by
  cases h with
  | negative hs h => exact .negative hs (h.primary_calls hu)
  | factor h => exact .factor (h.primary_calls (hu.wider (Nat.le_succ n)))

theorem operations_calls (h : Phrase name (n + 3) .operations ts) (hne : ts ≠ []) (hu : Phrase name n .calls us) :
    Phrase name (n + 3) .operations (ts ++ us) := by
  generalize hk : PhraseKind.operations = kind at h
  generalize hm : n + 3 = m at h
  induction h with
  | noOperation => exact absurd rfl hne
  | @operation _ op vs ws ho h1 h2 _ ih =>
    subst hm
    rw [List.cons_append, List.append_assoc]
    by_cases hws : ws = []
    · subst hws
      rw [List.nil_append, ← List.append_nil (vs ++ us)]
      exact .operation ho (h1.factor_calls hu) .noOperation
    · exact .operation ho h1 (ih hws hk rfl)
  | _ => cases hk

/-- calls on the last operand of an expression -/
theorem expr_calls (h : Phrase name (n + 4) .expr ts) (hu : Phrase name n .calls us) :
    Phrase name (n + 4) .expr (ts ++ us) := by
  cases h with
  | @expr _ vs ws h1 h2 =>
    rw [List.append_assoc]
    by_cases hws : ws = []
    · subst hws
      rw [List.nil_append, ← List.append_nil (vs ++ us)]
      exact .expr (h1.factor_calls hu) .noOperation
    · exact .expr h1 (h2.operations_calls hws hu)

theorem expr_operations (h : Phrase name (n + 1) .expr ts) (hu : Phrase name n .operations us) :
    Phrase name (n + 1) .expr (ts ++ us) := by
  cases h with
  | expr h1 h2 =>
    rw [List.append_assoc]
    exact .expr h1 (h2.operations_append hu)

theorem isSome_minus {t : Token} (h : t.isLiteral "-" = true) : (operatorOf .standard t).isSome = true := by
  obtain ⟨line, rfl⟩ := eq_identifier (by decide) h
  rfl

/-- **Two expressions as one.** An expression that begins with a parenthesis or a minus sign is a call or an operand of
the expression before it. -/
theorem merge (hname : ∀ t, name t → continues t = false) (h : Phrase name (n + 2) .expr ts)
    (hu : Phrase name n .expr us) (hc : continues (front us) = true) : Phrase name (n + 2) .expr (ts ++ us) := by
  cases hu with
  | @expr k fs os hf hos =>
    rw [← List.append_assoc]
    refine expr_operations ?_ (hos.wider (by omega))
    cases hf with
    | @negative j m ps hm hp =>
      refine h.expr_operations ?_
      rw [← List.append_nil ps]
      exact .operation (isSome_minus hm) (.factor (hp.wider (by omega))) .noOperation
    | @factor j _ hp =>
      have hother : ∀ {t : Token} {vs : List Token}, continues (front (t :: vs ++ os)) = true → continues t = false →
          False := fun h ht => by rw [List.cons_append, front_cons, ht] at h; cases h
      cases hp with
      | @grouped i o c es vs ho he hclose hv =>
        have hargs : Phrase name (i + 1) (.args [front es]) (es ++ []) := .args he .noMoreArgs
        rw [List.append_nil] at hargs
        refine h.expr_calls ?_
        rw [List.append_cons, ← List.cons_append]
        exact .moreCalls (.call ho hargs hclose) (hv.wider (by omega))
      | number ha _ => exact (hother hc (continues_of_accepts ha (.inl rfl))).elim
      | name ha _ => exact (hother hc (hname _ ha)).elim
      | string ha _ => exact (hother hc (continues_of_accepts ha (.inr rfl))).elim

end Phrase

/-! ## Statements as they are read -/

/-- the first argument is read as a part of the expression before it, and the second one not as a part of the comma -/
def isMisread : List Token → Bool
  | a :: b :: _ => continues a && !continues b
  | _ => false

/-- the first argument is not read as a part of the expression before it -/
def isApart : List Token → Bool
  | a :: _ => !continues a
  | [] => true

/-- the names, and commas -/
def orComma (name : Token → Prop) (t : Token) : Prop := name t ∨ t.isLiteral "," = true

theorem continues_comma {t : Token} (h : t.isLiteral "," = true) : continues t = false := by
  obtain ⟨line, rfl⟩ := eq_identifier (by decide) h
  rfl

section Clarifying

variable {name : Token → Prop} {n : Nat} {ts us firsts : List Token}

theorem Phrase.expr_room (h : Phrase name n .expr ts) : ∃ k, n = k + 4 := by
  cases h with
  | expr hf _ =>
    cases hf with
    | negative _ hp => cases hp <;> exact ⟨_, rfl⟩
    | factor hp => cases hp <;> exact ⟨_, rfl⟩

theorem Phrase.withComma {kind : PhraseKind} (h : Phrase name n kind ts) : Phrase (orComma name) n kind ts :=
  h.mono (fun _ => .inl) (Nat.le_refl n)

/-- a comma is read as a name, and the argument after it as a part of this -/
theorem Phrase.comma {c : Token} (hname : ∀ t, name t → continues t = false) (hc : c.isLiteral "," = true)
    (h : Phrase name n .expr ts) (ht : continues (front ts) = true) :
    Phrase (orComma name) (n + 2) .expr (c :: ts) := by
  obtain ⟨k, rfl⟩ := h.expr_room
  have hcomma : Phrase (orComma name) (k + 6) .expr ([c] ++ []) :=
    .expr (.factor (.name (.inr hc) .noCalls)) .noOperation
  refine hcomma.merge (fun t => ?_) h.withComma ht
  rintro (hn | hn)
  · exact hname t hn
  · exact continues_comma hn

/-- an expression and arguments that are not misread, as they are read -/
theorem clarify_command (hname : ∀ t, name t → continues t = false) (h : Phrase name n .expr ts)
    (hu : Phrase name n (.args firsts) us) (ha : isMisread firsts = false) :
    Clause (orComma name) (isApart · = true) (n + 2) .simple (ts ++ us) := by
  have hname' : ∀ t, orComma name t → continues t = false := fun t ht => ht.elim (hname t) continues_comma
  cases hu with
  | @args k more as bs has hbs =>
    have hwide := h.withComma.wider (Nat.le_succ _)
    cases hc : continues (front as) with
    | false =>
      have hargs := (Phrase.args has hbs).withComma.wider (Nat.le_succ _)
      exact .command hwide hargs (by rw [isApart, hc]; rfl)
    | true =>
      have hmerged := hwide.merge hname' has.withComma hc
      cases hbs with
      | noMoreArgs =>
        rw [List.append_nil]
        exact .expr hmerged
      | @moreArgs j c firsts cs ds hcomma hcs hds =>
        -- the comma becomes the first token of the arguments
        have hnext : continues (front cs) = true := by simpa [isMisread, hc] using ha
        have hargs := Phrase.args (Phrase.comma hname hcomma hcs hnext) (hds.withComma.wider (Nat.le_succ _))
        rw [← List.append_assoc]
        exact .command hmerged hargs (by rw [front_cons, isApart, continues_comma hcomma]; rfl)

/-- **Statements as they are read.** Where no arguments are misread, each statement has a form in which no argument can
be read as a part of what comes before it. -/
theorem Clause.clarified {kind : ClauseKind} (hname : ∀ t, name t → continues t = false)
    (h : Clause name (isMisread · = false) n kind ts) :
    Clause (orComma name) (isApart · = true) (n + 1) kind ts := by
  induction h with
  | expr h => exact .expr (h.withComma.wider (Nat.le_succ _))
  | command h hu ha => exact clarify_command hname h hu ha
  | conditional hi h _ ih => exact .conditional hi (h.withComma.wider (Nat.le_succ _)) ih
  | alternative hi h _ he _ ih1 ih2 => exact .alternative hi (h.withComma.wider (Nat.le_succ _)) ih1 he ih2
  | loop hw h _ ih => exact .loop hw (h.withComma.wider (Nat.le_succ _)) ih
  | simple _ ih => exact .simple ih
  | nothing => exact .nothing
  | something _ ih => exact .something ih
  | noFollowing => exact .noFollowing
  | following ht _ _ ih1 ih2 => exact .following ht ih1 ih2
  | block ho _ _ hc ih1 ih2 => exact .block ho ih1 ih2 hc
  | noMoreParams => exact .noMoreParams
  | moreParams hc hp _ ih => exact .moreParams hc (.inl hp) ih
  | noParams ho hc => exact .noParams ho hc
  | params ho hp _ hc ih => exact .params ho (.inl hp) ih hc
  | definition hd hf _ _ ih1 ih2 => exact .definition hd (.inl hf) ih1 ih2
  | empty ht => exact .empty ht
  | defined _ ht ih => exact .defined ih ht
  | stated _ ht ih => exact .stated ih ht

end Clarifying

end Stone
