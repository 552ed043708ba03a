/-
Sessions fed with lines. Every line is parsed together with the lines that wait, so programs are parsed that end too
early. One token of lookahead is enough to know that: a program cut off inside a statement asks for more input and fails
in no other way.

- `Statements.truncated`: a first part of a program is a list of statements, or parsing it fails at the end of input.
- `Repl.feedAll_agrees`: lines fed one by one give what the whole text gives.
-/
import Stone.Proofs.Programs
import Stone.Proofs.Simulation
import Stone.Repl

namespace Stone

open TokenStream Parsing Grammar

/-! ## Programs that end too early -/

section Truncation

variable {l : Level} {ts cut rest : List Token} {n : Node} {budget : Nat}

/-- a statement is one of the alternatives and then a separator -/
theorem run_program (l : Level) (budget depth : Nat) (s : TokenStream) :
    (l.grammar.parseRule budget (depth + 1) Place.program).run s =
      (do
        let ns ← l.grammar.parseElement budget (l.grammar.parseRule budget depth) (.choice (Language.programRules l))
        let t ← read
        if [";", Token.lineEndText].any t.isLiteral then return Build.collapse.make ns
        else fail (.unexpected t (some ";")) : Parsing Node).run s := by
  rw [parseRule, parseInside, Language.elements_eq, Language.build_eq]
  simp only [Language.elementsAt, Language.buildAt, parseElements, EStateM.run_bind]
  cases EStateM.run (l.grammar.parseElement budget (l.grammar.parseRule budget depth)
    (.choice (Language.programRules l))) s with
  | error e s' => rfl
  | ok ns s' =>
    simp only [separator, parseElement, Parsing.lift_self, EStateM.run_bind]
    cases EStateM.run read s' with
    | error e s'' => rfl
    | ok t s'' =>
      cases hl : [";", Token.lineEndText].any t.isLiteral with
      | true => simp only [hl, if_true, Bool.false_eq_true, if_false, EStateM.run_pure, List.append_nil]
      | false => simp only [hl, Bool.false_eq_true, if_false, run_fail, List.head?_cons]

/-- a statement that is cut off: it was complete, or parsing misses the rest of it -/
theorem program_truncated {depth : Nat}
    (h : Derives l.grammar depth (.rule Place.program) (ts ++ cut) [n] rest) (hb : ts.length < budget) :
    (∃ left, rest = left ++ cut ∧
      (l.grammar.parseRule budget depth Place.program).run (ofTokens ts) = .ok n (ofTokens left)) ∨
    cut ≠ [] ∧ ∃ expected s, (l.grammar.parseRule budget depth Place.program).run (ofTokens ts) =
      .error (.raised (.unexpected Token.inputEnd expected)) s := by
  have hsteady := Language.steady l Place.program
  generalize hns : [n] = ns at h
  cases h with
  | @rule depth _ _ _ _ h =>
    rw [run_program, EStateM.run_bind]
    rw [Language.build_eq] at hns
    rw [Language.elements_eq] at h hsteady
    cases h with
    | cons hchoice hend =>
      have hf := hchoice.follows (n := depth) (Language.steady l) (hsteady _ List.mem_cons_self) hb hb
      cases hend with
      | cons hliteral hnil =>
        cases hnil
        generalize hr : (Task.run l.grammar budget depth budget (.element (.choice (Language.programRules l)))).run
          (ofTokens ts) = r at hf
        have hr' : EStateM.run (l.grammar.parseElement budget (l.grammar.parseRule budget depth)
          (.choice (Language.programRules l))) (ofTokens ts) = r := hr
        rw [hr']
        have hmissing : ∀ ms : List Node, ∃ expected s, EStateM.run (do
            let t ← read
            if [";", Token.lineEndText].any t.isLiteral then return Build.collapse.make ms
            else fail (.unexpected t (some ";")) : Parsing Node) (ofTokens []) =
              .error (.raised (.unexpected Token.inputEnd expected)) s := fun ms => ⟨_, _, rfl⟩
        cases hliteral with
        | literal ht =>
          cases hf with
          | same left hl =>
            cases left with
            | nil =>
              refine .inr ⟨?_, hmissing _⟩
              rintro rfl
              cases hl
            | cons t left =>
              cases hl
              refine .inl ⟨left, rfl, ?_⟩
              simp only [Bool.false_eq_true, if_false, List.append_nil, List.cons.injEq, and_true] at hns
              simp only [EStateM.run_bind, run_read, front_cons, ht, if_true, List.tail_cons, EStateM.run_pure, hns]
              rfl
          | deep hd => exact absurd hd (Nat.lt_irrefl _)
          | starved hc hs =>
            refine .inr ⟨hc, ?_⟩
            cases r with
            | ok ms s =>
              obtain rfl : s = ofTokens [] := hs
              exact hmissing ms
            | error e s =>
              cases e with
              | endless => exact hs.elim
              | raised e =>
                cases e with
                | unexpected t expected =>
                  obtain rfl : t = Token.inputEnd := hs
                  exact ⟨_, _, rfl⟩
                | tooDeep line => exact absurd hs (Nat.lt_irrefl _)
                | scan e => exact hs.elim

/-- parsing these tokens fails at the end of input, whatever stream they come from -/
def Breaks (l : Level) (ts : List Token) : Prop :=
  ∀ s budget, s.Clean → s.tokens = ts → ts.length < budget →
    ∃ expected s', ((Language.ofLevel l).parseStatements budget).run s =
      .error (.raised (.unexpected Token.inputEnd expected)) s'

/-- a program that breaks in its first statement -/
theorem breaks_of_first (hne : ts ≠ []) (hu : Unended ts)
    (h : ∀ budget, ts.length < budget → ∃ expected s,
      (l.grammar.parseRule budget maxNesting Place.program).run (ofTokens ts) =
        .error (.raised (.unexpected Token.inputEnd expected)) s) : Breaks l ts := by
  intro s budget hc hs hb
  subst hs
  obtain ⟨k, rfl⟩ : ∃ k, budget = k + 1 := ⟨budget - 1, by omega⟩
  obtain ⟨s₁, h1, hs1, hc1⟩ := atEnd_of_clean hc
  have hend : (front s.tokens).isInputEnd = false := by
    rw [Bool.eq_false_iff, ne_eq, isInputEnd_front hu]
    exact hne
  rw [hend] at h1
  have hlen := s₁.length_tokens_le
  rw [hs1] at hlen
  obtain ⟨expected, s₂, h2⟩ := h (s₁.size + 1) (by omega)
  rw [← hs1] at h2
  obtain ⟨s₃, h3⟩ := parse_error hc1 h2
  refine ⟨expected, s₃, ?_⟩
  rw [Language.parseStatements, EStateM.run_bind, h1]
  simp only [Bool.false_eq_true, if_false, EStateM.run_bind, Language.parseStatement, Language.program_eq, h3]

/-- a program that breaks after its first statement -/
theorem breaks_of_later (hu : Unended ts) (hd : Derives l.grammar maxNesting (.rule Place.program) ts [n] rest)
    (h : Breaks l rest) : Breaks l ts := by
  intro s budget hc hs hb
  subst hs
  obtain ⟨k, rfl⟩ : ∃ k, budget = k + 1 := ⟨budget - 1, by omega⟩
  have hlt := program_takes hd
  obtain ⟨s₁, h1, hs1, hc1⟩ := atEnd_of_clean hc
  rw [front_not_inputEnd hu hd] at h1
  rw [← hs1] at hd
  obtain ⟨s₂, h2, hs2, hc2⟩ := parseStatement_of_derives hc1 hd
  obtain ⟨expected, s₃, h3⟩ := h s₂ k hc2 hs2 (by omega)
  refine ⟨expected, s₃, ?_⟩
  rw [Language.parseStatements, EStateM.run_bind, h1]
  simp only [Bool.false_eq_true, if_false, EStateM.run_bind, h2, h3]

/-- **Programs that end too early.** A first part of a program is a list of statements, and so is the rest, or parsing
it fails at the end of input. -/
theorem Statements.truncated {raw : List Node} (h : Statements l (ts ++ cut) raw) (hu : Unended ts) :
    (∃ first more, raw = first ++ more ∧ Statements l ts first ∧ Statements l cut more) ∨ cut ≠ [] ∧ Breaks l ts := by
  generalize hall : ts ++ cut = all at h
  induction h generalizing ts with
  | done =>
    obtain ⟨rfl, rfl⟩ := List.append_eq_nil_iff.1 hall
    exact .inl ⟨[], [], rfl, .done, .done⟩
  | @more all rest n ns hd hs ih =>
    subst hall
    by_cases hne : ts = []
    · subst hne
      exact .inl ⟨[], n :: ns, rfl, .done, .more hd hs⟩
    · by_cases hfirst : ∃ left, rest = left ++ cut ∧ Derives l.grammar maxNesting (.rule Place.program) ts [n] left
      · obtain ⟨left, rfl, hd'⟩ := hfirst
        rcases ih (hu.suffix hd'.suffix) rfl with ⟨first, more, rfl, hf, hm⟩ | ⟨hc, hb⟩
        · exact .inl ⟨n :: first, more, rfl, .more hd' hf, hm⟩
        · exact .inr ⟨hc, breaks_of_later hu hd' hb⟩
      · have hbreak : ∀ budget, ts.length < budget → cut ≠ [] ∧ ∃ expected s,
            (l.grammar.parseRule budget maxNesting Place.program).run (ofTokens ts) =
              .error (.raised (.unexpected Token.inputEnd expected)) s := by
          intro budget hb
          rcases program_truncated hd hb with ⟨left, hl, hr⟩ | hbreak
          · obtain ⟨left', hleft, hd'⟩ := justified_rule (derives_of_run l.grammar budget maxNesting Place.program) hr
            cases hleft
            exact absurd ⟨left, hl, hd'⟩ hfirst
          · exact hbreak
        exact .inr ⟨(hbreak _ (Nat.lt_succ_self _)).1, breaks_of_first hne hu fun budget hb => (hbreak budget hb).2⟩

end Truncation

theorem Statements.mapLines {l : Level} {ts : List Token} {ns : List Node} (h : Statements l ts ns) (f : Nat → Nat) :
    Statements l (ts.map (Token.mapLine f)) (ns.map (Node.mapLines f)) := by
  induction h with
  | done => exact .done
  | more hd _ ih => exact .more (hd.mapLines f) ih

/-! ## Texts made of lines -/

section Lines

/-- the text of lines, each with its end -/
def terminated (lines : List String) : String := String.join (lines.map fun line => line ++ "\n")

/-- lines without ends in them -/
def Single (lines : List String) : Prop := ∀ line ∈ lines, '\n' ∉ line.toList

/-- the lines as they are scanned -/
def scannedLines (lines : List String) : List (List Char) := lines.map fun line => Text.withoutReturn line.toList

variable {lines more : List String}

theorem terminated_snoc (lines : List String) (line : String) :
    terminated lines ++ line ++ "\n" = terminated (lines ++ [line]) := by
  rw [terminated, terminated, List.map_append, String.join_append, List.map_singleton, String.join_cons,
    String.join_nil, String.append_empty, String.append_assoc]

theorem lines_terminated (h : Single lines) : Text.lines (terminated lines).toList = scannedLines lines := by
  induction lines with
  | nil => rfl
  | cons line lines ih =>
    have hchars : (terminated (line :: lines)).toList = line.toList ++ '\n' :: (terminated lines).toList := by
      rw [terminated, List.map_cons, String.join_cons, String.toList_append, String.toList_append, terminated,
        List.append_assoc]
      rfl
    rw [hchars, lines_append (h line List.mem_cons_self), ih fun l hl => h l (List.mem_cons_of_mem _ hl)]
    rfl

theorem ofSource_terminated (h : Single lines) :
    ofSource (terminated lines) = ⟨[], scanAll 1 (scannedLines lines)⟩ := by
  rw [ofSource, lines_terminated h]

theorem scanAll_append (first : Nat) (texts others : List (List Char)) :
    scanAll first (texts ++ others) = scanAll first texts ++ scanAll (first + texts.length) others := by
  induction texts generalizing first with
  | nil => rfl
  | cons cs texts ih =>
    rw [List.cons_append, scanAll, scanAll, ih, List.length_cons, Nat.add_right_comm, Nat.add_assoc]
    rfl

theorem sound_append {xs ys : List (Except ScanError (List Token))} (h : ∀ line ∈ xs, ∃ ts, line = .ok ts) :
    sound (xs ++ ys) = sound xs ++ sound ys := by
  induction xs with
  | nil => rfl
  | cons x xs ih =>
    obtain ⟨ts, rfl⟩ := h x List.mem_cons_self
    rw [List.cons_append, sound, sound, ih fun line hl => h line (List.mem_cons_of_mem _ hl), List.append_assoc]

/-- a text of lines with more lines after it: its tokens, and the others with their numbers counted on -/
theorem tokens_terminated_append (h : Single (lines ++ more)) (hc : (ofSource (terminated (lines ++ more))).Clean) :
    (ofSource (terminated lines)).Clean ∧ (ofSource (terminated more)).Clean ∧
      (ofSource (terminated (lines ++ more))).tokens = (ofSource (terminated lines)).tokens ++
        (ofSource (terminated more)).tokens.map (Token.mapLine (· + lines.length)) := by
  have hl : Single lines := fun line hm => h line (List.mem_append_left _ hm)
  have hm : Single more := fun line hm => h line (List.mem_append_right _ hm)
  rw [ofSource_terminated h] at hc ⊢
  rw [ofSource_terminated hl, ofSource_terminated hm]
  simp only [Clean, scannedLines, List.map_append, scanAll_append, List.mem_append, List.length_map] at hc
  have h1 : ∀ line ∈ scanAll 1 (scannedLines lines), ∃ ts, line = .ok ts := fun line hl => hc line (.inl hl)
  have h2 : ∀ line ∈ scanAll (1 + lines.length) (scannedLines more), ∃ ts, line = .ok ts :=
    fun line hl => hc line (.inr hl)
  obtain ⟨h3, hshift⟩ := scanAll_shifted h2
  refine ⟨h1, h3, ?_⟩
  simp only [tokens, List.nil_append, scannedLines, List.map_append, scanAll_append, List.length_map]
  simp only [scannedLines] at h1 hshift
  rw [sound_append h1, hshift]

end Lines

/-! ## Feeding -/

namespace Feed

/-- the values of complete statements, and none otherwise -/
def given : Feed → List Value
  | values vs => vs
  | _ => []

def isFailed : Feed → Bool
  | failed _ => true
  | _ => false

end Feed

namespace Repl

/-- takes lines one by one -/
def feedAll (r : Repl) : List String → List Feed × Repl
  | [] => ([], r)
  | line :: more => ((r.feed line).1 :: ((r.feed line).2.feedAll more).1, ((r.feed line).2.feedAll more).2)

/-- statements that are complete run -/
theorem feed_complete {s s' : Session} {lines : List String} {line : String} {ns : List Node} {vs : List Value}
    (h : parseProgram s.level (terminated (lines ++ [line])) = .ok ns) (hr : s.evalNodes ns = (.ok vs, s')) :
    feed ⟨s, terminated lines⟩ line = (.values vs, ⟨s', ""⟩) := by
  simp only [feed, terminated_snoc, h, hr]

/-- statements that are not complete wait -/
theorem feed_incomplete {s : Session} {lines : List String} {line : String} {expected : Option String}
    (h : parseProgram s.level (terminated (lines ++ [line])) =
      .error (.raised (.unexpected Token.inputEnd expected))) :
    feed ⟨s, terminated lines⟩ line = (.incomplete, ⟨s, terminated (lines ++ [line])⟩) := by
  simp only [feed, terminated_snoc, h]
  rfl

end Repl

theorem parseProgram_of_breaks {l : Level} {source : String} (hc : (ofSource source).Clean)
    (h : Breaks l (ofSource source).tokens) :
    ∃ expected, parseProgram l source = .error (.raised (.unexpected Token.inputEnd expected)) := by
  have hlen := (ofSource source).length_tokens_le
  obtain ⟨expected, s, hs⟩ := h (ofSource source) ((ofSource source).size + 1) hc rfl (by omega)
  exact ⟨expected, by rw [parseProgram_eq, hs]⟩

/-- running statements in two parts -/
theorem evalNodes_append {s s' : Session} {ns ms : List Node} {vs : List Value}
    (h : s.evalNodes (ns ++ ms) = (.ok vs, s')) :
    ∃ us ws mid, vs = us ++ ws ∧ s.evalNodes ns = (.ok us, mid) ∧ mid.evalNodes ms = (.ok ws, s') := by
  induction ns generalizing s vs with
  | nil => exact ⟨[], vs, s, rfl, rfl, h⟩
  | cons n ns ih =>
    rw [List.cons_append, Session.evalNodes] at h
    rcases hn : s.evalNode n with ⟨e | v, s₁⟩
    · rw [hn] at h
      cases h
    · rw [hn] at h
      simp only at h
      rcases hm : s₁.evalNodes (ns ++ ms) with ⟨e | vs', s₂⟩
      · rw [hm] at h
        cases h
      · rw [hm] at h
        cases h
        obtain ⟨us, ws, mid, rfl, h1, h2⟩ := ih hm
        refine ⟨v :: us, ws, mid, rfl, ?_, h2⟩
        simp only [Session.evalNodes, hn, h1]

theorem evalNode_level (s : Session) (n : Node) : (s.evalNode n).2.level = s.level := by
  rw [Session.evalNode]
  split <;> rfl

theorem evalNodes_level (s : Session) (ns : List Node) : (s.evalNodes ns).2.level = s.level := by
  induction ns generalizing s with
  | nil => rfl
  | cons n ns ih =>
    have hn := evalNode_level s n
    rw [Session.evalNodes]
    rcases hr : s.evalNode n with ⟨e | v, s₁⟩
    · rw [hr] at hn
      exact hn
    · rw [hr] at hn
      have hs := ih s₁
      rcases hm : s₁.evalNodes ns with ⟨e | vs, s₂⟩ <;> rw [hm] at hs <;> simp only [hm] <;> exact hs.trans hn

/-- lists of trees that are equal up to line numbers are alike -/
theorem forall₂_of_withoutLines {ns ms : List Node} (h : ns.map Node.withoutLines = ms.map Node.withoutLines) :
    List.Forall₂ (Node.Alike false) ns ms := by
  induction ns generalizing ms with
  | nil =>
    obtain rfl : ms = [] := by simpa using h.symm
    exact .nil
  | cons n ns ih =>
    cases ms with
    | nil => cases h
    | cons m ms =>
      rw [List.map_cons, List.map_cons, List.cons.injEq] at h
      exact .cons (.of_withoutLines h.1) (ih h.2)

theorem withoutEmpty_append (ns ms : List Node) : withoutEmpty (ns ++ ms) = withoutEmpty ns ++ withoutEmpty ms :=
  List.filter_append ns ms

theorem withoutEmpty_mapLines (f : Nat → Nat) (ns : List Node) :
    (withoutEmpty (ns.map (Node.mapLines f))).map Node.withoutLines = (withoutEmpty ns).map Node.withoutLines := by
  induction ns with
  | nil => rfl
  | cons n ns ih =>
    rw [List.map_cons, withoutEmpty_cons, withoutEmpty_cons, Node.is_mapLines]
    split
    · exact ih
    · rw [List.map_cons, List.map_cons, ih, Node.withoutLines_mapLines]

/-- what feeding gives, against the values and the session that the whole text gave -/
structure Agreement (vs : List Value) (s : Session) (r : List Feed × Repl) : Prop where
  not_failed : ∀ f ∈ r.1, f.isFailed = false
  pending : r.2.pending = ""
  values : List.Forall₂ (Value.Alike false) vs (r.1.flatMap Feed.given)
  session : s.Alike false r.2.session

/-- the statements that are left when those of a first part are taken away, on lines counted anew -/
theorem Statements.counted_anew {l : Level} {lines more : List String} {ns : List Node}
    (h : Statements l ((ofSource (terminated more)).tokens.map (Token.mapLine (· + lines.length))) ns) :
    Statements l (ofSource (terminated more)).tokens (ns.map (Node.mapLines (· - lines.length))) := by
  have hback : ∀ ts : List Token,
      (ts.map (Token.mapLine (· + lines.length))).map (Token.mapLine (· - lines.length)) = ts := by
    intro ts
    rw [List.map_map]
    refine List.map_id'' (fun t => ?_) ts
    show (⟨t.line + lines.length - lines.length, t.lexeme⟩ : Token) = t
    rw [Nat.add_sub_cancel]
  have hm := h.mapLines (· - lines.length)
  rwa [hback] at hm

/-- **Feeding goes along with the whole text.** `lines` wait, `more` are to come, and `t` is where the whole text has
come to: it still has to run `batch`, which are the statements of `lines` and `more` up to line numbers. The induction
is on the lines to come; whenever statements are complete the lines of the others are counted anew. -/
theorem feedAll_from (lines more : List String) {s t t' : Session} {raw batch : List Node} {vs : List Value}
    (hs : t.Alike false s) (hl : Single (lines ++ more))
    (hc : (ofSource (terminated (lines ++ more))).Clean)
    (hraw : Statements s.level (ofSource (terminated (lines ++ more))).tokens raw)
    (hbatch : batch.map Node.withoutLines = (withoutEmpty raw).map Node.withoutLines)
    (hrun : t.evalNodes batch = (.ok vs, t')) (hend : more = [] → lines = []) :
    Agreement vs t' (Repl.feedAll ⟨s, terminated lines⟩ more) := by
  induction more generalizing lines s t raw batch vs with
  | nil =>
    obtain rfl := hend rfl
    cases hraw with
    | more hd _ => exact absurd (program_takes hd) (Nat.not_lt_zero _)
    | done =>
      obtain rfl : batch = [] := by simpa [withoutEmpty] using hbatch
      cases hrun
      exact ⟨List.forall_mem_nil _, rfl, .nil, hs⟩
  | cons line more ih =>
    have hsplit : lines ++ line :: more = (lines ++ [line]) ++ more := by simp
    rw [hsplit] at hl hc hraw
    obtain ⟨hc1, hc2, htokens⟩ := tokens_terminated_append hl hc
    rw [htokens] at hraw
    rcases hraw.truncated (unended_ofSource _) with ⟨first, others, rfl, hfirst, hothers⟩ | ⟨hne, hbreak⟩
    · -- the lines are complete: they run, and the others go on from there
      rw [withoutEmpty_append, List.map_append] at hbatch
      obtain ⟨b1, b2, rfl, hb1, hb2⟩ := List.map_eq_append_iff.1 hbatch
      obtain ⟨us, ws, mid, rfl, hr1, hr2⟩ := evalNodes_append hrun
      have hout := evalNodes_sim hs (forall₂_of_withoutLines hb1)
      rw [hr1] at hout
      generalize hfed : s.evalNodes (withoutEmpty first) = r at hout
      cases hout with
      | @ok _ us' _ s' hus hs' =>
        have hlevel : s'.level = s.level := by
          have := evalNodes_level s (withoutEmpty first)
          rwa [hfed] at this
        have hparse := parseProgram_ok.2 ⟨hc1, first, hfirst, rfl⟩
        have hfeed := Repl.feed_complete hparse hfed
        have hrest := ih [] hs' (fun l hm => hl l (List.mem_append_right _ hm)) hc2
          (by rw [hlevel]; exact hothers.counted_anew) (hb2.trans (withoutEmpty_mapLines _ others).symm) hr2
          (fun _ => rfl)
        have hsame : Repl.mk s' "" = ⟨s', terminated []⟩ := rfl
        rw [Repl.feedAll, hfeed, hsame]
        refine ⟨?_, hrest.pending, ?_, hrest.session⟩
        · exact List.forall_mem_cons.2 ⟨rfl, hrest.not_failed⟩
        · rw [List.flatMap_cons]
          exact List.rel_append hus hrest.values
    · -- the lines are not complete: they wait, and more are to come
      obtain ⟨expected, hparse⟩ := parseProgram_of_breaks hc1 hbreak
      have hmore : more = [] → lines ++ [line] = [] := by
        rintro rfl
        exact absurd rfl hne
      have hrest := ih (lines ++ [line]) hs hl hc (htokens ▸ hraw) hbatch hrun hmore
      rw [Repl.feedAll, Repl.feed_incomplete hparse]
      exact ⟨List.forall_mem_cons.2 ⟨rfl, hrest.not_failed⟩, hrest.pending, hrest.values, hrest.session⟩

/-- **Lines fed one by one** give what the whole text gives: if it parses and runs without an error in a new session,
then no line fails, nothing waits in the end, and the values and the heap are those of the whole text up to line numbers
in the trees of functions. -/
theorem Repl.feedAll_agrees (l : Level) (lines : List String) (statements : List Node) (vs : List Value) (s : Session)
    (hl : ∀ line ∈ lines, '\n' ∉ line.toList)
    (hparse : parseProgram l (String.join (lines.map fun line => line ++ "\n")) = .ok statements)
    (hrun : (Session.new l).evalSource (String.join (lines.map fun line => line ++ "\n")) = (.ok vs, s)) :
    let r := (Repl.new l).feedAll lines
    (∀ f ∈ r.1, f.isFailed = false) ∧ r.2.pending = "" ∧
      (r.1.flatMap Feed.given).map Value.withoutLines = vs.map Value.withoutLines ∧
      r.2.session.globals = s.globals ∧ r.2.session.heap.withoutLines = s.heap.withoutLines := by
  have heval : (Session.new l).evalSource (terminated lines) = (Session.new l).evalNodes statements :=
    evalSource_eq hparse
  rw [terminated] at heval
  rw [heval] at hrun
  obtain ⟨hc, raw, hraw, rfl⟩ := parseProgram_ok.1 hparse
  have h := feedAll_from [] lines (s := Session.new l) (Session.new_alike l l) hl hc hraw rfl hrun fun _ => rfl
  exact ⟨h.not_failed, h.pending, (Value.map_withoutLines_eq h.values).symm, h.session.globals_eq.symm,
    h.session.heap.withoutLines_eq.symm⟩

/-- a block over three lines: the lines wait until the last one, which gives the value of the block -/
theorem Repl.block_over_lines_agrees :
    let r := (Repl.new .closures).feedAll ["if 1 \x7b", "\"a\"", "\x7d"]
    (∀ f ∈ r.1, f.isFailed = false) ∧ r.2.pending = "" ∧
      (r.1.flatMap Feed.given).map Value.withoutLines = [.string "a"] := by
  have hparse : parseProgram .closures
      (String.join (["if 1 \x7b", "\"a\"", "\x7d"].map fun line => line ++ "\n")) =
      .ok [.list .conditional [.leaf .number ⟨1, .number Decimal.one⟩, .list .block [.leaf .string ⟨2, .string "a"⟩]]] := by
    cbv
  have hrun : (Session.new .closures).evalSource
      (String.join (["if 1 \x7b", "\"a\"", "\x7d"].map fun line => line ++ "\n")) =
      (.ok [.string "a"], Session.new .closures) := by
    cbv
  obtain ⟨hfailed, hpending, hvalues, -⟩ := Repl.feedAll_agrees .closures _ _ _ _ (by decide) hparse hrun
  exact ⟨hfailed, hpending, hvalues⟩

end Stone
