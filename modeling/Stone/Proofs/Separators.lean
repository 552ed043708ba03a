/-
A semicolon is a line end. To the lexer they are an identifier and a token of a kind of its own, but the grammar cannot
tell them apart: the literals for ends of statements name both, no name may be either of them, no operator is one, and
what the two have taken is left out of the tree. So parsing two streams that differ in nothing but this runs side by
side, with both streams always at the same place.

- `Element.blind`: the condition on an element; `blind_elements` checks it for the language.
- `paired_parseRule`: two runs of a rule, in every table of blind elements.
- `separators_interchangeable`: statements of the language.
-/
import Stone.Proofs.Comparison

namespace Stone

open TokenStream Parsing Grammar Stone.Language

/-! ## Interchangeable tokens -/

/-- does the token end a statement: a semicolon or a line end -/
def Token.endsStatement (t : Token) : Bool :=
  match t.lexeme with
  | .identifier text => text == ";"
  | .lineEnd => true
  | _ => false

/-- the same, apart from the line, or two ends of statements -/
def Interchangeable : Entry → Entry → Prop
  | .ok t, .ok t' => t.lexeme = t'.lexeme ∨ (t.endsStatement = true ∧ t'.endsStatement = true)
  | .error e, .error e' => e = e'
  | _, _ => False

/-- an element that cannot tell a semicolon from a line end, and keeps neither -/
def Element.blind : Element → Bool
  | .token (.identifier reserved) _ => reserved.contains ";"
  | .literal texts keep => if texts.contains ";" then texts.contains Token.lineEndText && !keep
    else !texts.contains Token.lineEndText
  | .operators _ table _ => !table.contains ";"
  | _ => true

/-- a table of elements that cannot tell a semicolon from a line end -/
def Grammar.Blind (g : Grammar) : Prop := ∀ id, ∀ e ∈ (g.rule id).elements, e.blind = true

/-- **The language is blind** for the difference. -/
theorem blind_elements (l : Level) : l.grammar.Blind := by
  have hall : ∀ id, (elementsAt l id).all Element.blind = true :=
    forall_places (by cases l <;> decide +kernel) fun _ => rfl
  intro id e he
  rw [elements_eq] at he
  exact List.all_eq_true.1 (hall id) e he

section Tokens

variable {t t' : Token}

theorem accepts_of_lexeme (h : t.lexeme = t'.lexeme) (cls : TokenClass) : cls.accepts t = cls.accepts t' := by
  obtain ⟨line, x⟩ := t
  obtain ⟨line', x'⟩ := t'
  obtain rfl : x = x' := h
  rfl

theorem isLiteral_of_lexeme (h : t.lexeme = t'.lexeme) : t.isLiteral = t'.isLiteral := by
  funext text
  rw [Token.isLiteral, Token.isLiteral, h]

theorem endsStatement_iff : t.endsStatement = true ↔ t.lexeme = .identifier ";" ∨ t.lexeme = .lineEnd := by
  obtain ⟨line, x⟩ := t
  cases x <;> simp [Token.endsStatement]

/-- a blind class accepts no end of a statement -/
theorem accepts_endsStatement {cls : TokenClass} {kind : LeafKind} (hb : (Element.token cls kind).blind = true)
    (ht : t.endsStatement = true) : cls.accepts t = false := by
  obtain ⟨line, x⟩ := t
  cases cls with
  | identifier reserved =>
    rcases endsStatement_iff.1 ht with h | h <;> simp only at h <;> subst h
    · simpa [TokenClass.accepts, Element.blind] using hb
    · rfl
  | number | string => rcases endsStatement_iff.1 ht with h | h <;> simp only at h <;> subst h <;> rfl

/-- a blind literal is every end of a statement, or none -/
theorem isLiteral_endsStatement {texts : List String} {keep : Bool} (hb : (Element.literal texts keep).blind = true)
    (ht : t.endsStatement = true) : texts.any t.isLiteral = texts.contains ";" := by
  have hany : ∀ text, texts.any (fun s => text == s) = texts.contains text := fun text => by
    rw [List.contains_eq_any_beq]
  obtain ⟨line, x⟩ := t
  rcases endsStatement_iff.1 ht with h | h <;> simp only at h <;> subst h
  · exact hany ";"
  · refine (hany Token.lineEndText).trans ?_
    rw [Element.blind] at hb
    cases hc : texts.contains ";" <;> rw [hc] at hb <;> simp at hb <;> simp [hb]

/-- no end of a statement is an operator -/
theorem operatorOf_endsStatement {id : RuleId} {table : OperatorTable} {kind : ListKind}
    (hb : (Element.operators id table kind).blind = true) (ht : t.endsStatement = true) : operatorOf table t = none := by
  obtain ⟨line, x⟩ := t
  rcases endsStatement_iff.1 ht with h | h <;> simp only at h <;> subst h
  · simpa [operatorOf, Element.blind, OperatorTable.contains] using hb
  · rfl

/-- what a blind class accepts it accepts in every line, and in place of its like -/
theorem accepts_interchangeable {cls : TokenClass} {kind : LeafKind} (hb : (Element.token cls kind).blind = true)
    (h : Interchangeable (.ok t) (.ok t')) : cls.accepts t = cls.accepts t' := by
  rcases h with h | ⟨h, h'⟩
  · rw [accepts_of_lexeme h]
  · rw [accepts_endsStatement hb h, accepts_endsStatement hb h']

theorem isLiteral_interchangeable {texts : List String} {keep : Bool}
    (hb : (Element.literal texts keep).blind = true) (h : Interchangeable (.ok t) (.ok t')) :
    texts.any t.isLiteral = texts.any t'.isLiteral := by
  rcases h with h | ⟨h, h'⟩
  · rw [isLiteral_of_lexeme h]
  · rw [isLiteral_endsStatement hb h, isLiteral_endsStatement hb h']

theorem operatorOf_interchangeable {id : RuleId} {table : OperatorTable} {kind : ListKind}
    (hb : (Element.operators id table kind).blind = true) (h : Interchangeable (.ok t) (.ok t')) :
    operatorOf table t = operatorOf table t' := by
  rcases h with h | ⟨h, h'⟩
  · rw [operatorOf, operatorOf, h]
  · rw [operatorOf_endsStatement hb h, operatorOf_endsStatement hb h']

/-- the same token up to its line -/
theorem sameTree_leaf (kind : LeafKind) (h : t.lexeme = t'.lexeme) :
    SameTree (fun _ => 0) (.leaf kind t) (.leaf kind t') := by
  rw [SameTree, Node.mapLines_leaf, Node.mapLines_leaf, Token.mapLine, Token.mapLine, h]

/-- what can begin with one of two entries can begin with the other -/
theorem sightWithin_interchangeable {g : Grammar} (hg : g.Blind) {x y : Entry} (h : Interchangeable x y) (n : Nat) :
    g.sightWithin x n = g.sightWithin y n := by
  rcases x with e | t <;> rcases y with e' | t'
  · obtain rfl : e = e' := h
    rfl
  · exact h.elim
  · exact h.elim
  · induction n with
    | zero => rfl
    | succ n ih =>
      funext id
      rw [sightWithin, sightWithin, ih]
      cases he : (g.rule id).elements with
      | nil => rfl
      | cons first more =>
        have hb := hg id first (by rw [he]; exact List.mem_cons_self)
        cases first with
        | token cls kind => exact congrArg Except.ok (accepts_interchangeable hb h)
        | literal texts keep => exact congrArg Except.ok (isLiteral_interchangeable hb h)
        | _ => rfl

end Tokens

/-! ## Two streams -/

/-- the entry at this place; past the end it is the end of input -/
def entryAt (xs : List Entry) (i : Nat) : Entry := xs[i]?.getD (.ok Token.inputEnd)

/-- errors of the same kind with the same hint, about the entries at the same place of the two streams. The entry that
is wrong is the last one taken or the next one. -/
inductive SameFault (xs ys : List Entry) (taken : Nat) : ParseError → ParseError → Prop
  | unexpected {i : Nat} {t t' : Token} {wanted : Option String} : taken = i ∨ taken = i + 1 →
      entryAt xs i = .ok t → entryAt ys i = .ok t' → SameFault xs ys taken (.unexpected t wanted) (.unexpected t' wanted)
  | tooDeep {t t' : Token} : entryAt xs taken = .ok t → entryAt ys taken = .ok t' →
      SameFault xs ys taken (.tooDeep t.line) (.tooDeep t'.line)
  | scan {i : Nat} {e : ScanError} : taken = i + 1 → entryAt xs i = .error e → entryAt ys i = .error e →
      SameFault xs ys taken (.scan e) (.scan e)

/-- the two runs end in the same way and at the same place, unless one of them does not end -/
def Beside {α β : Type} (xs ys : List Entry) (V : α → β → Prop) : Ending α → Ending β → Prop
  | .ok a s, .ok b s' => V a b ∧ ∃ k, s.content = xs.drop k ∧ s'.content = ys.drop k
  | .error (.raised e) s, .error (.raised e') s' =>
    ∃ k, s.content = xs.drop k ∧ s'.content = ys.drop k ∧ SameFault xs ys k e e'
  | .error .endless _, _ => True
  | _, .error .endless _ => True
  | _, _ => False

/-- from the same place of the two streams the actions run side by side -/
def Paired (xs ys : List Entry) {α β : Type} (V : α → β → Prop) (p : Parsing α) (q : Parsing β) : Prop :=
  ∀ k (s s' : TokenStream), s.content = xs.drop k → s'.content = ys.drop k → Beside xs ys V (p.run s) (q.run s')

section Pairs

variable {xs ys : List Entry} {α β γ δ : Type} {V : α → β → Prop} {W : γ → δ → Prop} {p : Parsing α} {q : Parsing β}

theorem beside_endless (r : Ending α) (s : TokenStream) : Beside xs ys V r (.error .endless s) := by
  rcases r with ⟨a, u⟩ | ⟨_ | _, u⟩ <;> trivial

theorem Paired.bind {f : α → Parsing γ} {f' : β → Parsing δ} (hp : Paired xs ys V p q)
    (hf : ∀ a b, V a b → Paired xs ys W (f a) (f' b)) : Paired xs ys W (p >>= f) (q >>= f') := by
  intro k s s' hs hs'
  have h := hp k s s' hs hs'
  rw [EStateM.run_bind, EStateM.run_bind]
  revert h
  rcases p.run s with ⟨a, u⟩ | ⟨_ | _, u⟩ <;> rcases q.run s' with ⟨b, u'⟩ | ⟨_ | _, u'⟩ <;> intro h
  case ok.ok =>
    obtain ⟨hv, j, hu, hu'⟩ := h
    exact hf a b hv j u u' hu hu'
  case ok.error.endless => exact beside_endless _ _
  case ok.error.raised | error.raised.ok => exact h.elim
  all_goals exact h

variable (hc : List.Forall₂ Interchangeable xs ys) {k : Nat} {s s' : TokenStream}

include hc

/-- the next entries are interchangeable, or both streams are at their end -/
theorem next_entries (k : Nat) :
    (xs.drop k = [] ∧ ys.drop k = [] ∧ entryAt xs k = .ok Token.inputEnd ∧ entryAt ys k = .ok Token.inputEnd) ∨
      ∃ x y, xs.drop k = x :: xs.drop (k + 1) ∧ ys.drop k = y :: ys.drop (k + 1) ∧ Interchangeable x y ∧
        entryAt xs k = x ∧ entryAt ys k = y := by
  rcases Nat.lt_or_ge k xs.length with hk | hk
  · have hk' : k < ys.length := hc.length_eq ▸ hk
    refine .inr ⟨xs[k], ys[k], List.drop_eq_getElem_cons hk, List.drop_eq_getElem_cons hk', ?_, ?_, ?_⟩
    · exact hc.get hk hk'
    · rw [entryAt, List.getElem?_eq_getElem hk]
      rfl
    · rw [entryAt, List.getElem?_eq_getElem hk']
      rfl
  · have hk' : ys.length ≤ k := hc.length_eq ▸ hk
    refine .inl ⟨List.drop_eq_nil_of_le hk, List.drop_eq_nil_of_le hk', ?_, ?_⟩
    · rw [entryAt, List.getElem?_eq_none hk]
      rfl
    · rw [entryAt, List.getElem?_eq_none hk']
      rfl

/-- looking at the next tokens of both streams -/
theorem beside_peek {f : Token → Parsing γ} {f' : Token → Parsing δ} (hs : s.content = xs.drop k)
    (hs' : s'.content = ys.drop k)
    (hf : ∀ t t' u u', entryAt xs k = .ok t → entryAt ys k = .ok t' → Interchangeable (.ok t) (.ok t') →
      u.content = xs.drop k → u'.content = ys.drop k → Beside xs ys W ((f t).run u) ((f' t').run u')) :
    Beside xs ys W ((peek >>= f).run s) ((peek >>= f').run s') := by
  obtain ⟨u, hr, hu⟩ := run_peek_content s
  obtain ⟨u', hr', hu'⟩ := run_peek_content s'
  rw [EStateM.run_bind, EStateM.run_bind, hr, hr']
  rw [hs] at hu ⊢
  rw [hs'] at hu' ⊢
  rcases next_entries hc k with ⟨h, h', he, he'⟩ | ⟨x, y, h, h', hx, he, he'⟩
  · rw [h] at hu ⊢
    rw [h'] at hu' ⊢
    exact hf _ _ u u' he he' (.inl rfl) (hu.trans h.symm) (hu'.trans h'.symm)
  · rw [h] at hu ⊢
    rw [h'] at hu' ⊢
    rcases x with e | t <;> rcases y with e' | t'
    · obtain rfl : e = e' := hx
      exact ⟨k + 1, hu, hu', .scan rfl he he'⟩
    · exact hx.elim
    · exact hx.elim
    · exact hf t t' u u' he he' hx (hu.trans h.symm) (hu'.trans h'.symm)

/-- taking the next tokens of both streams -/
theorem beside_read {f : Token → Parsing γ} {f' : Token → Parsing δ} (hs : s.content = xs.drop k)
    (hs' : s'.content = ys.drop k)
    (hf : ∀ t t' u u', entryAt xs k = .ok t → entryAt ys k = .ok t' → Interchangeable (.ok t) (.ok t') →
      u.content = xs.drop (k + 1) → u'.content = ys.drop (k + 1) → Beside xs ys W ((f t).run u) ((f' t').run u')) :
    Beside xs ys W ((read >>= f).run s) ((read >>= f').run s') := by
  obtain ⟨u, hr, hu⟩ := run_read_content s
  obtain ⟨u', hr', hu'⟩ := run_read_content s'
  rw [EStateM.run_bind, EStateM.run_bind, hr, hr']
  rw [hs] at hu ⊢
  rw [hs'] at hu' ⊢
  rcases next_entries hc k with ⟨h, h', he, he'⟩ | ⟨x, y, h, h', hx, he, he'⟩
  · have hnil : ∀ zs : List Entry, zs.drop k = [] → zs.drop (k + 1) = [] := fun zs hzs =>
      List.drop_eq_nil_of_le ((List.drop_eq_nil_iff.1 hzs).trans (Nat.le_succ k))
    rw [h] at hu ⊢
    rw [h'] at hu' ⊢
    exact hf _ _ u u' he he' (.inl rfl) (hu.trans (hnil xs h).symm) (hu'.trans (hnil ys h').symm)
  · rw [h] at hu ⊢
    rw [h'] at hu' ⊢
    rcases x with e | t <;> rcases y with e' | t'
    · obtain rfl : e = e' := hx
      exact ⟨k + 1, hu, hu', .scan rfl he he'⟩
    · exact hx.elim
    · exact hx.elim
    · exact hf t t' u u' he he' hx hu hu'

/-- **Running side by side goes along with parsing.** -/
theorem comparison_paired : Comparison (Paired xs ys) where
  pure hv := fun k _ _ hs hs' => ⟨hv, k, hs, hs'⟩
  bind := Paired.bind
  endless _ := fun _ _ _ _ _ => trivial
  stuck := fun k _ _ hs hs' => beside_peek hc hs hs' fun _ _ _ _ ht ht' _ hu hu' =>
    ⟨k, hu, hu', .unexpected (.inl rfl) ht ht'⟩
  tooDeep := fun k _ _ hs hs' => beside_peek hc hs hs' fun _ _ _ _ ht ht' _ hu hu' =>
    ⟨k, hu, hu', .tooDeep ht ht'⟩

/-! ## Blind elements -/

theorem paired_takes {g g' : Grammar} {budget budget' : Nat} {parse parse' : RuleId → Parsing Node} {e : Element}
    (hb : e.blind = true) (htakes : e.takes = true) :
    Paired xs ys (SameTrees fun _ => 0) (g.parseElement budget parse e) (g'.parseElement budget' parse' e) := by
  intro k s s' hs hs'
  cases e with
  | token cls kind =>
    refine beside_read hc hs hs' fun t t' u u' ht ht' hx hu hu' => ?_
    rw [accepts_interchangeable hb hx]
    cases ha : cls.accepts t' with
    | false => exact ⟨k + 1, hu, hu', .unexpected (.inr rfl) ht ht'⟩
    | true =>
      refine ⟨.one (sameTree_leaf kind (hx.resolve_right fun h => ?_)), k + 1, hu, hu'⟩
      rw [accepts_endsStatement hb h.2] at ha
      cases ha
  | literal texts keep =>
    refine beside_read hc hs hs' fun t t' u u' ht ht' hx hu hu' => ?_
    rw [isLiteral_interchangeable hb hx]
    cases ha : texts.any t'.isLiteral with
    | false => exact ⟨k + 1, hu, hu', .unexpected (.inr rfl) ht ht'⟩
    | true =>
      cases keep with
      | false => exact ⟨.nil, k + 1, hu, hu'⟩
      | true =>
        -- an end of a statement would be left out
        refine ⟨.one (sameTree_leaf .mark (hx.resolve_right fun h => ?_)), k + 1, hu, hu'⟩
        rw [isLiteral_endsStatement hb h.2] at ha
        rw [Element.blind, ha] at hb
        simp at hb
  | _ => cases htakes

/-- the same operator is taken from both streams -/
theorem paired_takeOperator {id : RuleId} {table : OperatorTable} {kind : ListKind}
    (hb : (Element.operators id table kind).blind = true) (waiting : Option Precedence) :
    Paired xs ys (SameOperator fun _ => 0) (takeOperator table waiting) (takeOperator table waiting) := by
  intro k s s' hs hs'
  rw [takeOperator_eq]
  refine beside_peek hc hs hs' fun t t' u u' ht ht' hx hu hu' => ?_
  rw [operatorOf_interchangeable hb hx]
  cases ho : operatorOf table t' with
  | none => exact ⟨rfl, k, hu, hu'⟩
  | some p =>
    simp only
    cases yields waiting p with
    | false => exact ⟨rfl, k, hu, hu'⟩
    | true =>
      refine beside_read hc hu hu' fun op op' u u' hop hop' _ hu hu' => ?_
      obtain rfl : t = op := Except.ok.inj (ht.symm.trans hop)
      obtain rfl : t' = op' := Except.ok.inj (ht'.symm.trans hop')
      have hlexeme : t.lexeme = t'.lexeme := hx.resolve_right fun h => by
        rw [operatorOf_endsStatement hb h.2] at ho
        cases ho
      refine ⟨?_, k + 1, hu, hu'⟩
      simp [SameOperator, Token.mapLine, hlexeme]

theorem paired_canBegin {g : Grammar} (hg : g.Blind) (id : RuleId) : Paired xs ys Eq (g.canBegin id) (g.canBegin id) := by
  intro k s s' hs hs'
  have h := sees_canBegin g _ id s hs
  have h' := sees_canBegin g _ id s' hs'
  have hsight : g.sight (look 0 (xs.drop k)).1 id = g.sight (look 0 (ys.drop k)).1 id := by
    refine congrFun (sightWithin_interchangeable hg ?_ _) id
    rcases next_entries hc k with ⟨hx, hy, -⟩ | ⟨x, y, hx, hy, hxy, -⟩ <;> rw [hx, hy]
    · exact .inl rfl
    · rcases x with e | t <;> rcases y with e' | t' <;> exact hxy
  rw [hsight] at h
  generalize g.sight (look 0 (ys.drop k)).1 id = answer at h h'
  revert h h'
  rcases (g.canBegin id).run s with ⟨a, u⟩ | ⟨e, u⟩ <;> rcases (g.canBegin id).run s' with ⟨b, u'⟩ | ⟨e', u'⟩ <;>
    rcases answer with r | r <;> intro h h'
  case ok.ok.ok => exact ⟨h.1.trans h'.1.symm, k, h.2, h'.2⟩
  case error.error.error =>
    obtain ⟨rfl, ⟨rfl, -⟩ | ⟨bad, rfl, hcontent⟩⟩ := h
    · trivial
    · obtain ⟨rfl, ⟨hend, -⟩ | ⟨bad', hbad, hcontent'⟩⟩ := h'
      · cases hend
      · cases hbad
        rcases next_entries hc k with ⟨hx, -⟩ | ⟨x, y, hx, hy, -, hat, hat'⟩
        · rw [hx] at hcontent
          cases hcontent
        · rw [hx] at hcontent
          rw [hy] at hcontent'
          obtain ⟨rfl, hu⟩ := List.cons.inj hcontent
          obtain ⟨rfl, hu'⟩ := List.cons.inj hcontent'
          exact ⟨k + 1, hu.symm, hu'.symm, .scan rfl hat hat'⟩
  all_goals first | exact h.elim | exact h'.elim

/-- **Two runs of a rule** in a table of blind elements. -/
theorem paired_parseRule {g : Grammar} (hg : g.Blind) (budget budget' nesting : Nat) (id : RuleId) :
    Paired xs ys (SameTree fun _ => 0) (g.parseRule budget nesting id) (g.parseRule budget' nesting id) := by
  have hK := comparison_paired hc
  have htolerant : Tolerant (Paired xs ys) := fun _ p _ s s' _ _ => beside_endless (p.run s) s'
  induction nesting generalizing id with
  | zero => exact hK.tooDeep
  | succ nesting ih =>
    refine hK.parseRule rfl (hK.parseElements fun e he => ?_)
    refine hK.parseElement (fun id _ => paired_canBegin hc hg id) (fun id _ => ih id)
      (paired_takes hc (hg id e he)) ?_ (.inr htolerant)
    rintro id table kind rfl waiting
    exact paired_takeOperator hc (hg _ _ he) waiting

end Pairs

/-! ## Statements -/

/-- **Semicolons and line ends are interchangeable.** On two streams that differ in nothing but this a statement is
parsed alike: it gives the same tree up to line numbers and takes as many tokens, or it fails in the same way at the
same place. -/
theorem separators_interchangeable (l : Level) {s s' : TokenStream}
    (h : List.Forall₂ Interchangeable s.content s'.content) :
    (∃ n n' u u' k, (ofLevel l).parseStatement.run s = .ok n u ∧ (ofLevel l).parseStatement.run s' = .ok n' u' ∧
      n.withoutLines = n'.withoutLines ∧ u.content = s.content.drop k ∧ u'.content = s'.content.drop k) ∨
    ∃ e e' u u' k, (ofLevel l).parseStatement.run s = .error (.raised e) u ∧
      (ofLevel l).parseStatement.run s' = .error (.raised e') u' ∧
      u.content = s.content.drop k ∧ u'.content = s'.content.drop k ∧ SameFault s.content s'.content k e e' := by
  have hends := parseStatement_ends l s
  have hends' := parseStatement_ends l s'
  have hrun : ∀ u : TokenStream, (ofLevel l).parseStatement.run u =
      (l.grammar.parseRule (u.size + 1) maxNesting Place.program).run u := fun u => by
    rw [parseStatement, program_eq, run_parse]
  have hbeside := paired_parseRule h (blind_elements l) (s.size + 1) (s'.size + 1) maxNesting Place.program 0 s s' rfl rfl
  rw [← hrun, ← hrun] at hbeside
  cases hr : (ofLevel l).parseStatement.run s with
  | ok n u =>
    rw [hr] at hbeside
    cases hr' : (ofLevel l).parseStatement.run s' with
    | ok n' u' =>
      rw [hr'] at hbeside
      obtain ⟨hn, k, hu, hu'⟩ := hbeside
      exact .inl ⟨n, n', u, u', k, rfl, rfl, hn, hu, hu'⟩
    | error e' u' =>
      rw [hr'] at hbeside
      cases e' with
      | raised e' => exact hbeside.elim
      | endless => exact absurd hr' (hends' u')
  | error e u =>
    rw [hr] at hbeside
    cases e with
    | endless => exact absurd hr (hends u)
    | raised e =>
      cases hr' : (ofLevel l).parseStatement.run s' with
      | ok n' u' => rw [hr'] at hbeside; exact hbeside.elim
      | error e' u' =>
        rw [hr'] at hbeside
        cases e' with
        | endless => exact absurd hr' (hends' u')
        | raised e' =>
          obtain ⟨k, hu, hu', hfault⟩ := hbeside
          exact .inr ⟨e, e', u, u', k, rfl, rfl, hu, hu', hfault⟩

/-- a loop on one line and on three -/
theorem separators_interchangeable_loop :
    let words (ends : Nat → Token) : TokenStream :=
      ofTokens (["while", "x", "\x7b", "y"].map (Token.identifier 1) ++ ends 1 :: Token.identifier 2 "\x7d" :: [ends 2])
    let s := words fun line => Token.identifier line ";"
    let s' := words Token.lineEnd
    List.Forall₂ Interchangeable s.content s'.content ∧
      ∃ n n' u u' k, Language.functions.parseStatement.run s = .ok n u ∧
        Language.functions.parseStatement.run s' = .ok n' u' ∧ n.withoutLines = n'.withoutLines ∧
        u.content = s.content.drop k ∧ u'.content = s'.content.drop k := by
  intro words s s'
  have h : List.Forall₂ Interchangeable s.content s'.content := by
    simp [s, s', words, Interchangeable, Token.endsStatement, Token.identifier, Token.lineEnd]
  refine ⟨h, (separators_interchangeable .functions h).resolve_right ?_⟩
  rintro ⟨e, e', u, u', k, hr, -⟩
  cases hr

end Stone
