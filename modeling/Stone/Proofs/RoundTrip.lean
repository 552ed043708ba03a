/-
From a program to its text and back. A program whose names are ordinary words can be written and read again: what is read
is the program up to line numbers and merged calls, and its text is the same again. Any name will do as long as no
statement is taken for another one and no lone quote comes before other quotes; then the text also runs as the program
does. Two limits of the language show: the text may nest too deep to be read, since it has parentheses that the program
did not have, and merged calls take less depth, so the text may go on where the program goes too deep.

- `Fits.ordinary`: trees with ordinary names are clear and have no lone quote.
- `rendered_reparses`: programs with ordinary names are read again.
- `rendered_runs_alike`: programs run as their text does.
- `NameOfIf.isClear_needed`, `TwoQuotes.quoteSafe_needed`: neither condition on the text can be dropped.
-/
import Stone.Proofs.Rendered
import Stone.Proofs.Simulation

namespace Stone

open Text

/-! ## Ordinary names -/

/-- a word of letters, digits and underscores that the grammar gives no meaning -/
def isOrdinary (s : String) : Bool :=
  match s.toList with
  | [] => false
  | c :: cs => isWordStart c && cs.all isWordPart && !keywords.contains s

namespace Node

/-- what a definition defines -/
def definedNames : ListKind → List Node → List String
  | .definition, leaf .mark t :: _ => [t.text]
  | _, _ => []

mutual

/-- the names in a tree: variables, parameters and what definitions define -/
def names : Node → List String
  | leaf kind t => if kind = .name then [t.text] else []
  | list kind children => definedNames kind children ++ namesOfAll children

def namesOfAll : List Node → List String
  | [] => []
  | n :: more => n.names ++ namesOfAll more

end

theorem namesOfAll_eq (ns : List Node) : namesOfAll ns = ns.flatMap names := by
  induction ns with
  | nil => rfl
  | cons n more ih => rw [namesOfAll, ih, List.flatMap_cons]

/-- the names of a child are names of the tree -/
theorem names_child {kind : ListKind} {ns : List Node} {n : Node} (hn : n ∈ ns) {s : String} (hs : s ∈ n.names) :
    s ∈ (list kind ns).names := by
  rw [names, namesOfAll_eq]
  exact List.mem_append_right _ (List.mem_flatMap.2 ⟨n, hn, hs⟩)

/-- every name in the tree is ordinary -/
def Ordinary (n : Node) : Prop := ∀ s ∈ n.names, isOrdinary s = true

theorem Ordinary.child {kind : ListKind} {ns : List Node} (h : (list kind ns).Ordinary) {n : Node} (hn : n ∈ ns) :
    n.Ordinary := fun _ hs => h _ (names_child hn hs)

/-- a list of another kind than a block is clear if its children are -/
theorem blocksClear_list {kind : ListKind} {ns : List Node} (hk : kind ≠ .block)
    (h : ∀ n ∈ ns, n.blocksClear = true) : (list kind ns).blocksClear = true := by
  rw [blocksClear, allBlocksClear_eq, List.all_eq_true.2 h]
  simp [hk]

end Node

section Ordinary

variable {l : Level} {Q : Token → Prop} {n : Node}

theorem quoteSafe_of_not_mem {ls : List Lexeme} (h : loneQuote ∉ ls) : QuoteSafe ls := by
  induction ls with
  | nil => exact .nil
  | cons x more ih =>
    obtain ⟨hx, hmore⟩ : loneQuote ≠ x ∧ loneQuote ∉ more := by simpa using h
    exact .cons (fun _ _ he => absurd he.symm hx) (ih hmore)

theorem not_mem_inParens {ls : List Lexeme} (h : loneQuote ∉ ls) : loneQuote ∉ inParens ls := by
  simpa [inParens, loneQuote] using h

theorem not_mem_operandLexemes (h : loneQuote ∉ n.lexemes) : loneQuote ∉ n.operandLexemes := by
  by_cases hb : n.isBareOperand = true
  · rwa [Node.operandLexemes_bare hb]
  · rw [Node.operandLexemes_wrapped (by simpa using hb)]
    exact not_mem_inParens h

theorem not_mem_flatten {ns : List Node} (h : ∀ n ∈ ns, loneQuote ∉ n.lexemes) :
    loneQuote ∉ (ns.map Node.lexemes).flatten := by
  intro hm
  obtain ⟨ls, hls, hm⟩ := List.mem_flatten.1 hm
  obtain ⟨n, hn, rfl⟩ := List.mem_map.1 hls
  exact h n hn hm

theorem not_mem_intercalate {x : Lexeme} {ns : List Node} (hx : loneQuote ≠ x) (h : ∀ n ∈ ns, loneQuote ∉ n.lexemes) :
    loneQuote ∉ [x].intercalate (ns.map Node.lexemes) := by
  cases ns with
  | nil => exact List.not_mem_nil
  | cons n more =>
    obtain ⟨hn, hmore⟩ := List.forall_mem_cons.1 h
    rw [List.map_cons, intercalate_cons, List.mem_append]
    rintro (hm | hm)
    · exact hn hm
    · obtain ⟨ls, hls, hm⟩ := List.mem_flatMap.1 hm
      obtain ⟨m, hm', rfl⟩ := List.mem_map.1 hls
      rcases List.mem_cons.1 hm with hm | hm
      · exact hx hm
      · exact hmore m hm' hm

/-- a lone quote in a list is one in its children -/
theorem not_mem_list {kind : ListKind} {ns : List Node} (h : ∀ n ∈ ns, loneQuote ∉ n.lexemes) :
    loneQuote ∉ (Node.list kind ns).lexemes := by
  have hall := not_mem_flatten h
  have hjoined : ∀ s : String, s ≠ "\"" → loneQuote ∉ [.identifier s].intercalate (ns.map Node.lexemes) :=
    fun s hs => not_mem_intercalate (fun he => hs (Lexeme.identifier.inj he).symm) h
  have hword : ∀ {s : String} {ls : List Lexeme}, s ≠ "\"" → loneQuote ∉ ls → loneQuote ∉ .identifier s :: ls :=
    fun hs hm => List.not_mem_cons_of_ne_of_not_mem (fun he => hs (Lexeme.identifier.inj he).symm) hm
  have hcalls : loneQuote ∉ Node.callLexemes ns (ns.map Node.lexemes) := by
    cases ns with
    | nil => exact List.not_mem_nil
    | cons operand calls =>
      obtain ⟨hoperand, hcalls⟩ := List.forall_mem_cons.1 h
      exact List.not_mem_append (not_mem_operandLexemes hoperand) (not_mem_flatten hcalls)
  rw [Node.lexemes_list]
  cases kind with
  | plain => exact hall
  | binary => exact not_mem_inParens hall
  | negative => exact hword (by decide) hcalls
  | primary => exact hcalls
  | arguments => exact not_mem_inParens (hjoined _ (by decide))
  | parameters => exact not_mem_inParens (hjoined _ (by decide))
  | block => exact hword (by decide) (List.not_mem_append (hjoined _ (by decide)) (by decide))
  | conditional =>
    refine hword (by decide) (List.not_mem_append (fun hm => hall ?_) ?_)
    · obtain ⟨ls, hls, hm⟩ := List.mem_flatten.1 hm
      exact List.mem_flatten.2 ⟨ls, List.mem_of_mem_take hls, hm⟩
    · split
      · rename_i other ho
        refine hword (by decide) fun hm => hall ?_
        exact List.mem_flatten.2 ⟨other, List.mem_of_getElem? ho, hm⟩
      · exact List.not_mem_nil
  | loop => exact hword (by decide) hall
  | definition => exact hword (by decide) hall
  | closure => exact hword (by decide) hall
  | empty => exact List.not_mem_nil

theorem first_of_beginsWith {x : Lexeme} {more : List Lexeme} {s : String} (hx : n.lexemes = x :: more)
    (hs : n.beginsWith s = true) : x = .identifier s := by
  rw [Node.beginsWith, hx] at hs
  exact Option.some.inj (beq_iff_eq.1 hs)

/-- the word that an expression begins with is a mark of the grammar or a name in it -/
theorem Fits.value_word {b : Bool} (h : Fits l Q (.value b) n) {s : String} (hs : n.beginsWith s = true) :
    s ∈ ["(", "-", "fun"] ∨ s ∈ n.names := by
  generalize hr : Role.value b = r at h
  induction h generalizing b with
  | number _ => cases first_of_beginsWith (Node.lexemes_leaf _ _) hs
  | string _ => cases first_of_beginsWith (Node.lexemes_leaf _ _) hs
  | name _ _ _ =>
    cases first_of_beginsWith (Node.lexemes_leaf _ _) hs
    exact .inr (List.mem_singleton.2 rfl)
  | negative _ _ =>
    cases first_of_beginsWith (Node.lexemes_negative _) hs
    exact .inl (by decide)
  | binary _ _ _ _ _ _ =>
    cases first_of_beginsWith (Node.lexemes_binary _ _ _) hs
    exact .inl (by decide)
  | @primary _ operand calls _ ho _ _ ih _ =>
    cases hr
    have hlexemes := Node.lexemes_primary operand calls
    by_cases hb : operand.isBareOperand = true
    · obtain ⟨x, more, hx, -⟩ := ho.value_head
      rw [Node.operandLexemes_bare hb, hx] at hlexemes
      have hbegins : operand.beginsWith s = true := by
        rw [Node.beginsWith, hx, first_of_beginsWith hlexemes hs]
        exact beq_self_eq_true _
      rcases ih hbegins rfl with hm | hm
      · exact .inl hm
      · exact .inr (Node.names_child List.mem_cons_self hm)
    · rw [Node.operandLexemes_wrapped (by simpa using hb)] at hlexemes
      cases first_of_beginsWith hlexemes hs
      exact .inl (by decide)
  | closure _ _ _ _ _ =>
    cases first_of_beginsWith (Node.lexemes_closure _ _) hs
    exact .inl (by decide)
  | _ => cases hr

/-- an expression with ordinary names begins with no word that stands before a statement -/
theorem Fits.ordinary_word {b : Bool} (h : Fits l Q (.value b) n) (ho : n.Ordinary) {s : String}
    (hs : s ∈ ["if", "while", "def"]) : n.beginsWith s = false := by
  rw [Bool.eq_false_iff]
  intro hb
  simp only [List.mem_cons, List.not_mem_nil, or_false] at hs
  rcases h.value_word hb with hm | hm
  · rcases hs with rfl | rfl | rfl <;> exact absurd hm (by decide)
  · have := ho s hm
    rcases hs with rfl | rfl | rfl <;> exact absurd this (by decide)

theorem Fits.ordinary_standsClear (h : Fits l Q .statement n) (ho : n.Ordinary) : n.standsClear = true := by
  cases h with
  | simple h =>
    have hif := h.ordinary_word ho (s := "if") (by decide)
    have hwhile := h.ordinary_word ho (s := "while") (by decide)
    simp [Node.standsClear, hif, hwhile]
  | _ => rfl

/-- no statement in the tree is taken for another one, and no name is a lone quote -/
structure Plain (n : Node) : Prop where
  blocks : n.blocksClear = true
  no_quote : loneQuote ∉ n.lexemes

theorem plain_leaf {kind : LeafKind} {t : Token} (h : loneQuote ≠ t.lexeme) : Plain (.leaf kind t) :=
  ⟨rfl, fun hm => h (List.mem_singleton.1 (Node.lexemes_leaf kind t ▸ hm))⟩

theorem plain_list {kind : ListKind} {ns : List Node} (hk : kind ≠ .block) (h : ∀ n ∈ ns, Plain n) :
    Plain (.list kind ns) :=
  ⟨Node.blocksClear_list hk fun n hn => (h n hn).blocks, not_mem_list fun n hn => (h n hn).no_quote⟩

/-- **Trees with ordinary names are plain.** -/
theorem Fits.ordinary {r : Role} (h : Fits l Q r n) (ho : n.Ordinary) : Plain n := by
  have hquote : ∀ s : String, isOrdinary s = true → loneQuote ≠ .identifier s := by
    rintro s hs he
    cases he
    exact absurd hs (by decide)
  induction h with
  | number _ => exact plain_leaf fun he => by cases he
  | string _ => exact plain_leaf fun he => by cases he
  | name _ _ _ => exact plain_leaf (hquote _ (ho _ (.head _)))
  | negative _ ih => exact plain_list (by decide) (List.forall_mem_singleton.2 (ih (ho.child (.head _))))
  | @binary _ _ _ _ op _ _ _ _ hp iha ihb =>
    have hop : loneQuote ≠ .identifier op := by
      intro he
      cases he
      cases hp
    refine plain_list (by decide) (List.forall_mem_cons.2 ⟨iha (ho.child (.head _)), ?_⟩)
    refine List.forall_mem_cons.2 ⟨plain_leaf hop, List.forall_mem_singleton.2 (ihb (ho.child ?_))⟩
    exact .tail _ (.tail _ (.head _))
  | primary _ _ _ _ ih ihs =>
    refine plain_list (by decide) (List.forall_mem_cons.2 ⟨ih (ho.child (.head _)), fun c hc => ?_⟩)
    exact ihs c hc (ho.child (.tail _ hc))
  | closure _ _ _ ihp ihb =>
    refine plain_list (by decide) (List.forall_mem_cons.2 ⟨ihp (ho.child (.head _)), ?_⟩)
    exact List.forall_mem_singleton.2 (ihb (ho.child (.tail _ (.head _))))
  | arguments _ ih => exact plain_list (by decide) fun n hn => ih n hn (ho.child hn)
  | parameter _ _ => exact plain_leaf (hquote _ (ho _ (.head _)))
  | parameters _ ih => exact plain_list (by decide) fun n hn => ih n hn (ho.child hn)
  | block hn ih =>
    have hplain := fun n hm => ih n hm (ho.child hm)
    have hstands := fun n hm => (hn n hm).ordinary_standsClear (ho.child hm)
    refine ⟨?_, not_mem_list fun n hm => (hplain n hm).no_quote⟩
    rw [Node.blocksClear, Node.allBlocksClear_eq, List.all_eq_true.2 hstands,
      List.all_eq_true.2 fun n hm => (hplain n hm).blocks]
    rfl
  | simple _ ih => exact ih ho
  | conditional _ _ ihc ihb =>
    refine plain_list (by decide) (List.forall_mem_cons.2 ⟨ihc (ho.child (.head _)), ?_⟩)
    exact List.forall_mem_singleton.2 (ihb (ho.child (.tail _ (.head _))))
  | otherwise _ _ _ ihc ihb iho =>
    refine plain_list (by decide) (List.forall_mem_cons.2 ⟨ihc (ho.child (.head _)), ?_⟩)
    refine List.forall_mem_cons.2 ⟨ihb (ho.child (.tail _ (.head _))), ?_⟩
    exact List.forall_mem_singleton.2 (iho (ho.child (.tail _ (.tail _ (.head _)))))
  | loop _ _ ihc ihb =>
    refine plain_list (by decide) (List.forall_mem_cons.2 ⟨ihc (ho.child (.head _)), ?_⟩)
    exact List.forall_mem_singleton.2 (ihb (ho.child (.tail _ (.head _))))
  | @definition line s _ _ _ _ _ _ _ ihp ihb =>
    have hname : loneQuote ≠ .identifier s := hquote s (ho s (by rw [Node.names]; exact .head _))
    refine plain_list (by decide) (List.forall_mem_cons.2 ⟨plain_leaf hname, ?_⟩)
    refine List.forall_mem_cons.2 ⟨ihp (ho.child (.tail _ (.head _))), ?_⟩
    exact List.forall_mem_singleton.2 (ihb (ho.child (.tail _ (.tail _ (.head _)))))
  | statement _ ih => exact ih ho
  | nothing => exact plain_list (by decide) (List.forall_mem_nil _)

/-- a whole statement with ordinary names is not taken for another one -/
theorem Fits.ordinary_isClear (h : Fits l Q .program n) (ho : n.Ordinary) : n.isClear l = true := by
  have hblocks := (h.ordinary ho).blocks
  cases h with
  | definition _ _ _ _ _ => rw [Node.isClear, hblocks]; rfl
  | nothing => cases l <;> rfl
  | statement h =>
    have hdef : n.beginsWith "def" = false := by
      cases h with
      | simple h => exact h.ordinary_word ho (by decide)
      | conditional _ _ => rw [Node.beginsWith, Node.lexemes_conditional]; rfl
      | otherwise _ _ _ => rw [Node.beginsWith, Node.lexemes_otherwise]; rfl
      | loop _ _ => rw [Node.beginsWith, Node.lexemes_loop]; rfl
    simp [Node.isClear, hblocks, h.ordinary_standsClear ho, hdef]

end Ordinary

/-! ## What is read -/

section Rereading

variable {l : Level} {source : String} {ns : List Node}

/-- the statements that are read again are the merged ones up to line numbers -/
theorem rereadFrom_withoutLines (line : Nat) (ns : List Node) :
    (rereadFrom line ns).map Node.withoutLines = ns.map fun n => n.merged.withoutLines := by
  induction ns generalizing line with
  | nil => rfl
  | cons n more ih =>
    rw [rereadFrom, List.map_cons, List.map_cons, ih, Node.reread, Node.onLine, Node.withoutLines_mapLines]

theorem sourceOfStatements_rereadFrom (line : Nat) (ns : List Node) :
    Node.sourceOfStatements (rereadFrom line ns) = Node.sourceOfStatements ns := by
  induction ns generalizing line with
  | nil => rfl
  | cons n more ih =>
    rw [rereadFrom, Node.sourceOfStatements, Node.sourceOfStatements, Node.is_reread, ih, Node.reread, Node.onLine,
      Node.sourceChars_mapLines, Node.sourceChars_merged]

theorem alike_rereadFrom (line : Nat) (h : ∀ n ∈ ns, n.Tidy) :
    List.Forall₂ (Node.Alike true) ns (rereadFrom line ns) := by
  induction ns generalizing line with
  | nil => exact .nil
  | cons n more ih =>
    obtain ⟨hn, hmore⟩ := List.forall_mem_cons.1 h
    exact .cons (hn.alike_merged _) (ih (line + 1) hmore)

theorem parseProgram_tidy (h : parseProgram l source = .ok ns) : ∀ n ∈ ns, n.Tidy := by
  intro n hn
  obtain ⟨hfits, hempty⟩ := parseProgram_fits h n hn
  rcases hfits.program_tidy with rfl | ht
  · cases hempty
  · exact ht

/-- **Programs with ordinary names are read again.** The text of a program that was parsed, if all its names are ordinary
words, nests too deep to be parsed or parses as the program up to line numbers and merged calls, and what is parsed has
the same text again. -/
theorem rendered_reparses (l : Level) (source : String) (ns : List Node) (hparse : parseProgram l source = .ok ns)
    (hnames : ∀ n ∈ ns, ∀ s ∈ n.names, isOrdinary s = true) :
    (∃ line, parseProgram l (Node.programSource ns) = .error (.raised (.tooDeep line))) ∨
      ∃ ms, parseProgram l (Node.programSource ns) = .ok ms ∧ ms.length = ns.length ∧
        ms.map Node.withoutLines = ns.map (fun n => n.merged.withoutLines) ∧
        Node.programSource ms = Node.programSource ns := by
  have hfits := parseProgram_fits hparse
  have hclear : ∀ n ∈ ns, n.isClear l = true := fun n hn => (hfits n hn).1.ordinary_isClear (hnames n hn)
  have hquotes : ∀ n ∈ ns, QuoteSafe n.lexemes :=
    fun n hn => quoteSafe_of_not_mem ((hfits n hn).1.ordinary (hnames n hn)).no_quote
  have hlines := rereadFrom_withoutLines 1 ns
  rcases parseProgram_rendered (fun n hn => (hfits n hn).1) (fun n hn => (hfits n hn).2) hclear hquotes with h | h
  · refine .inr ⟨rereadFrom 1 ns, h, ?_, hlines, ?_⟩
    · simpa using congrArg List.length hlines
    · rw [Node.programSource, Node.programSource, sourceOfStatements_rereadFrom]
  · exact .inl h

/-- two calls on a name, the second on the first in parentheses: the text is `f(1)(2)` -/
theorem double_call_reparses :
    ∃ ns, parseProgram .closures "(f(1))(2)" = .ok ns ∧
      ((∃ line, parseProgram .closures (Node.programSource ns) = .error (.raised (.tooDeep line))) ∨
        ∃ ms, parseProgram .closures (Node.programSource ns) = .ok ms ∧ ms.length = ns.length ∧
          ms.map Node.withoutLines = ns.map (fun n => n.merged.withoutLines) ∧
          Node.programSource ms = Node.programSource ns) := by
  have hparse : parseProgram .closures "(f(1))(2)" =
      .ok [.list .primary [.list .primary [.leaf .name ⟨1, .identifier "f"⟩,
        .list .arguments [.leaf .number ⟨1, .number Decimal.one⟩]],
        .list .arguments [.leaf .number ⟨1, .number ⟨false, 2, 0, by decide, by decide⟩⟩]]] := by
    cbv
  exact ⟨_, hparse, rendered_reparses .closures _ _ hparse (by decide)⟩

/-- results of a run that show the same: the same texts of values, or the same error up to its place -/
def SameOutcome : Except (Stop Fault) (List Value) → Except (Stop Fault) (List Value) → Prop
  | .ok vs, .ok ws => vs.map Value.display = ws.map Value.display
  | .error e, .error e' => e.map Fault.withoutLine = e'.map Fault.withoutLine
  | _, _ => False

theorem map_display_eq {vs ws : List Value} (h : List.Forall₂ (Value.Alike true) vs ws) :
    vs.map Value.display = ws.map Value.display := by
  induction h with
  | nil => rfl
  | cons hv _ ih => rw [List.map_cons, List.map_cons, hv.display_eq, ih]

/-- **Programs run as their text does.** If no statement of a program is taken for another one and no lone quote comes
before other quotes, then its text nests too deep to be parsed, or it parses and a new session gives the same on the text
as on the program, unless the program goes too deep. -/
theorem rendered_runs_alike (l : Level) (source : String) (ns : List Node) (hparse : parseProgram l source = .ok ns)
    (hclear : ∀ n ∈ ns, n.isClear l = true) (hquotes : ∀ n ∈ ns, QuoteSafe n.lexemes) :
    (∃ line, parseProgram l (Node.programSource ns) = .error (.raised (.tooDeep line))) ∨
      (∃ ms, parseProgram l (Node.programSource ns) = .ok ms) ∧
        ((∃ line, ((Session.new l).evalSource source).1 = .error (.raised (.eval (.tooDeep line)))) ∨
          SameOutcome ((Session.new l).evalSource source).1 ((Session.new l).evalSource (Node.programSource ns)).1) := by
  have hfits := parseProgram_fits hparse
  rcases parseProgram_rendered (fun n hn => (hfits n hn).1) (fun n hn => (hfits n hn).2) hclear hquotes with h | h
  · refine .inr ⟨⟨_, h⟩, ?_⟩
    have hsource : (Session.new l).evalSource source = (Session.new l).evalNodes ns := evalSource_eq hparse
    have htext : (Session.new l).evalSource (Node.programSource ns) = (Session.new l).evalNodes (rereadFrom 1 ns) :=
      evalSource_eq h
    have hnew : (Session.new l).Alike true (Session.new l) := Session.new_alike l l
    have hout := evalNodes_sim hnew (alike_rereadFrom 1 (parseProgram_tidy hparse))
    rw [hsource, htext]
    generalize (Session.new l).evalNodes ns = r at hout
    generalize (Session.new l).evalNodes (rereadFrom 1 ns) = r' at hout
    cases hout with
    | tooDeep => exact .inl ⟨_, rfl⟩
    | ok hvs _ => exact .inr (map_display_eq hvs)
    | error he _ => exact .inr he
  · exact .inl h

/-- a lone quote as a name: nothing after it is written with quotes -/
theorem quote_name_runs_alike :
    ∃ ns, parseProgram .closures "\" = 1" = .ok ns ∧
      ((∃ line, parseProgram .closures (Node.programSource ns) = .error (.raised (.tooDeep line))) ∨
        (∃ ms, parseProgram .closures (Node.programSource ns) = .ok ms) ∧
          ((∃ line, ((Session.new .closures).evalSource "\" = 1").1 = .error (.raised (.eval (.tooDeep line)))) ∨
            SameOutcome ((Session.new .closures).evalSource "\" = 1").1
              ((Session.new .closures).evalSource (Node.programSource ns)).1)) := by
  have hparse : parseProgram .closures "\" = 1" =
      .ok [.list .binary [.leaf .name ⟨1, .identifier "\""⟩, .leaf .mark ⟨1, .identifier "="⟩,
        .leaf .number ⟨1, .number Decimal.one⟩]] := by
    cbv
  exact ⟨_, hparse, rendered_runs_alike .closures _ _ hparse (by decide) (by decide)⟩

end Rereading

/-! ## What the conditions are for -/

namespace NameOfIf

/-- a name spelled like the word before a condition; in parentheses it is an expression -/
def source : String := "(if) = 1\n(if)"

def program : List Node :=
  [.list .binary [.leaf .name ⟨1, .identifier "if"⟩, .leaf .mark ⟨1, .identifier "="⟩,
    .leaf .number ⟨1, .number Decimal.one⟩], .leaf .name ⟨2, .identifier "if"⟩]

/-- **Statements have to be clear.** A name is written without parentheses. Alone on a line this one then begins a
conditional, which has no condition, so the text is no program. -/
theorem isClear_needed :
    ∃ ns, parseProgram .closures source = .ok ns ∧ (∀ n ∈ ns, QuoteSafe n.lexemes) ∧
      ¬ ((∃ line, parseProgram .closures (Node.programSource ns) = .error (.raised (.tooDeep line))) ∨
          ∃ ms, parseProgram .closures (Node.programSource ns) = .ok ms) := by
  have hsource : parseProgram .closures source = .ok program := by cbv
  have htext : parseProgram .closures (Node.programSource program) = .error (.raised (.unexpected ⟨2, .lineEnd⟩ none)) := by
    cbv
  refine ⟨program, hsource, by decide, ?_⟩
  rw [htext]
  rintro (⟨_, h⟩ | ⟨_, h⟩) <;> cases h

end NameOfIf

namespace TwoQuotes

/-- a block of two names, each of them a lone quote on a line of its own -/
def source : String := "if 1 \x7b\n\"\n\"\n\x7d"

def program : List Node :=
  [.list .conditional [.leaf .number ⟨1, .number Decimal.one⟩,
    .list .block [.leaf .name ⟨2, .identifier "\""⟩, .leaf .name ⟨3, .identifier "\""⟩]]]

/-- **Lone quotes have to stay apart.** A block is written on one line, and there the two quotes make a string: the
program misses a name, and its text gives that string. -/
theorem quoteSafe_needed :
    ∃ ns, parseProgram .closures source = .ok ns ∧ (∀ n ∈ ns, n.isClear .closures = true) ∧
      (∃ ms, parseProgram .closures (Node.programSource ns) = .ok ms) ∧
      ¬ ((∃ line, ((Session.new .closures).evalSource source).1 = .error (.raised (.eval (.tooDeep line)))) ∨
          SameOutcome ((Session.new .closures).evalSource source).1
            ((Session.new .closures).evalSource (Node.programSource ns)).1) := by
  have hparse : parseProgram .closures source = .ok program := by cbv
  have hsource : ((Session.new .closures).evalSource source).1 =
      .error (.raised (.eval (.undefinedName "\"" (some 2)))) := by
    cbv
  have htext : ((Session.new .closures).evalSource (Node.programSource program)).1 = .ok [.string "; "] := by cbv
  refine ⟨program, hparse, by decide, ⟨_, by cbv⟩, ?_⟩
  rw [hsource, htext]
  rintro (⟨_, h⟩ | h) <;> cases h

end TwoQuotes

end Stone
