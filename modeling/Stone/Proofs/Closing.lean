/-
Everything that is left open at the end of a line can be closed. Line ends are taken between the statements of a block
and after a whole statement, and nowhere else; so what is open there is a block, and what is open around it are
parentheses, conditions and blocks again. Each of them has its mark.

- `ready`: what a rule leaves open, the elements after it close, for every rule of the language.
- `rule_fate`: every rule has a fate on whole lines.
- `statement_fate`: a statement is complete, or wrong, or it waits for more and can be finished.
-/
import Stone.Proofs.Fate

namespace Stone

open TokenStream Parsing Grammar

namespace Language

variable {l : Level} {line n : Nat} {ts : List Token}

/-! ## Closing what is open -/

theorem opens_brace (l : Level) (line : Nat) : opens l (Token.identifier line "\x7d") = false := by
  cases l <;> rfl

theorem begins_following (l : Level) (t : Token) :
    l.grammar.begins t Place.following = some ([";", Token.lineEndText].any t.isLiteral) := begins_first l t rfl

/-- marks on this line that the elements read from nothing. `calm` is what comes after them, and `calm'` what has to
leave alone that which stands before the elements. -/
def Closable (l : Level) (line n : Nat) (es : List Element) (calm calm' : Token → Prop) : Prop :=
  ∃ cut ns, (∀ t ∈ cut, Closer line t) ∧ ∀ tail, calm (front tail) →
    calm' (front (cut ++ tail)) ∧ Derives l.grammar n (.elements es) (cut ++ tail) ns tail

namespace Closable

variable {es : List Element} {id : RuleId} {calm calm' : Token → Prop}

theorem nil (h : ∀ t, calm t → calm' t) : Closable l line n [] calm calm' :=
  ⟨[], [], nofun, fun _ ht => ⟨h _ ht, .nil⟩⟩

/-- an optional rule is left out -/
theorem optional (h : Closable l line n es calm fun t => calm' t ∧ l.grammar.begins t id = some false) :
    Closable l line n (.optional id :: es) calm calm' := by
  obtain ⟨cut, ns, hcut, hes⟩ := h
  exact ⟨cut, [] ++ ns, hcut, fun tail ht => ⟨(hes tail ht).1.1, .cons (.skipped (hes tail ht).1.2) (hes tail ht).2⟩⟩

/-- a repeated rule is left out -/
theorem many (h : Closable l line n es calm fun t => calm' t ∧ l.grammar.begins t id = some false) :
    Closable l line n (.many id :: es) calm calm' := by
  obtain ⟨cut, ns, hcut, hes⟩ := h
  exact ⟨cut, [] ++ ns, hcut,
    fun tail ht => ⟨(hes tail ht).1.1, .cons (.repetition (.manyNil (hes tail ht).1.2)) (hes tail ht).2⟩⟩

/-- a mark is added -/
theorem skip {text : String} (ht : text ∈ ["\x7d", ")", "\x7b"]) (h : calm' (Token.identifier line text))
    (hes : Closable l line n es calm fun _ => True) : Closable l line n (skip text :: es) calm calm' := by
  obtain ⟨cut, ns, hcut, hes⟩ := hes
  refine ⟨Token.identifier line text :: cut, [] ++ ns, List.forall_mem_cons.2 ⟨⟨text, ht, rfl⟩, hcut⟩,
    fun tail ht => ⟨h, .cons (.literal ?_) (hes tail ht).2⟩⟩
  simp [Token.isLiteral, Token.identifier]

/-- a block is added, with nothing in it -/
theorem block (hn : 0 < n) (h : calm' (Token.identifier line "\x7b"))
    (hes : Closable l line n es calm fun _ => True) : Closable l line n (.rule Place.block :: es) calm calm' := by
  obtain ⟨k, rfl⟩ := Nat.exists_eq_add_of_le' hn
  have hstatement : l.grammar.begins (Token.identifier line "\x7d") Place.statement = some false := by
    rw [begins_eq, begins_statement, opens_brace]
  have hfollowing : l.grammar.begins (Token.identifier line "\x7d") Place.following = some false := begins_following l _
  have hinside : Closable l line k (elementsAt l Place.block) (fun _ => True) calm' :=
    .skip (by decide) h (.optional (.many (.skip (by decide) ⟨⟨trivial, hstatement⟩, hfollowing⟩
      (.nil fun _ _ => trivial))))
  obtain ⟨cut, ns, hcut, hin⟩ := hinside
  obtain ⟨cut', ns', hcut', hes⟩ := hes
  refine ⟨cut ++ cut', [(l.grammar.rule Place.block).build.make ns] ++ ns',
    fun t ht => (List.mem_append.1 ht).elim (hcut t) (hcut' t), fun tail ht => ?_⟩
  rw [List.append_assoc]
  refine ⟨(hin _ trivial).1, .cons (.call (.rule ?_)) (hes tail ht).2⟩
  rw [elements_eq]
  exact (hin _ trivial).2

end Closable

/-- does the element call a rule in any case -/
def enters : Element → Bool
  | .rule _ | .choice _ | .operators _ _ _ => true
  | _ => false

theorem room_of_enters {g : Grammar} {e : Element} {rest : List Token} {ns : List Node}
    (h : Derives g n (.element e) ts ns rest) (he : enters e = true) : 0 < n := by
  cases h with
  | call h => exact h.room
  | choice _ h => exact h.room
  | chain h _ => exact h.room
  | _ => cases he

/-- whatever an element leaves open at the end of a line, the elements after it can be closed -/
inductive Ready (l : Level) (line n : Nat) (calm : Token → Prop) : List Element → Prop
  | nil : Ready l line n calm []
  | taken {e : Element} {es : List Element} : e.takes = true → takesLineEnd e = false → Ready l line n calm es →
      Ready l line n calm (e :: es)
  | closed {e : Element} {es : List Element} : e.takes = false →
      ((enters e = true → 0 < n) → Closable l line n es calm (CalmAfterElement l e)) → Ready l line n calm es →
      Ready l line n calm (e :: es)

/-- what the elements of a sequence read after those that gave `ns` -/
def After (g : Grammar) (n : Nat) (es : List Element) (ns : List Node) (ts : List Token) (all : List Node)
    (rest : List Token) : Prop :=
  ∃ ms, all = ns ++ ms ∧ Derives g n (.elements es) ts ms rest

/-- a token is taken, and then come other elements -/
theorem taken_then {e : Element} {es : List Element} {calm : Token → Prop} (htakes : e.takes = true) {t : Token}
    {us : List Token} (hl : Lined (t :: us))
    (h : (takesLineEnd e = false → us ≠ []) →
      Fate line (fun b : Room us => l.grammar.parseElements b.1 (l.grammar.parseRule b.1 n) es)
        (Derives l.grammar n (.elements es)) calm us) :
    Fate line (fun b : Room (t :: us) => l.grammar.parseElements b.1 (l.grammar.parseRule b.1 n) (e :: es))
      (Derives l.grammar n (.elements (e :: es))) calm (t :: us) := by
  rcases taken_fate (l := l) (n := n) htakes (hl.unended t List.mem_cons_self) us with ⟨ns, hp, hd, ht⟩ | ⟨err, he, hf⟩
  · have hrest := (h fun hline => hl.rest_ne_nil (ht hline)).reindex fun b : Room (t :: us) => b.fewer (Nat.le_succ _)
    refine .of_passes (After l.grammar n es ns) hp (hrest.map _ fun _ ms _ h => ⟨ms, rfl, h⟩) ?_
    rintro tail all rest ⟨ms, rfl, hms⟩
    exact .cons (hd _) hms
  · refine .fails (.raised err) he fun b s later hs => ?_
    obtain ⟨s', hr⟩ := hf b s later hs
    exact ⟨s', by rw [parseElements, EStateM.run_bind, hr]⟩

section Elements

variable (hrule : ∀ id ≠ Place.program, ∀ ts, Lined ts → ts ≠ [] → RuleFate l line n id (CalmAfter l id) ts)

include hrule

/-- **Elements in sequence have a fate**, if whatever one leaves open can be closed. -/
theorem elements_fate {es : List Element} {calm : Token → Prop} (h : Ready l line n calm es)
    (hcalls : ∀ e ∈ es, Place.program ∉ calls e) (hsteady : ∀ e ∈ es, e.Steady l.grammar) (hl : Lined ts)
    (hne : ts ≠ []) :
    Fate line (fun b : Room ts => l.grammar.parseElements b.1 (l.grammar.parseRule b.1 n) es)
      (Derives l.grammar n (.elements es)) calm ts := by
  induction h generalizing ts with
  | nil => exact .pure hne fun _ => .nil
  | @taken e es htakes hline _ ih =>
    obtain ⟨t, us, rfl⟩ := List.exists_cons_of_ne_nil hne
    exact taken_then htakes hl fun hus => ih (List.forall_mem_cons.1 hcalls).2 (List.forall_mem_cons.1 hsteady).2
      (hl.suffix (List.suffix_cons t us)) (hus hline)
  | @closed e es hopen hclose _ ih =>
    obtain ⟨hc, hcalls⟩ := List.forall_mem_cons.1 hcalls
    obtain ⟨hs, hsteady⟩ := List.forall_mem_cons.1 hsteady
    refine .bind (After l.grammar n es) (element_fate hrule hc hopen hs hl hne) (calm_inputEnd hs) ?_ ?_ ?_
    · intro ns mid hmid hd
      have hrest := (ih hcalls hsteady (hl.suffix hd.suffix) hmid).reindex
        fun b : Room ts => b.fewer hd.suffix.length_le
      exact hrest.map _ fun _ ms _ h => ⟨ms, rfl, h⟩
    · intro us ns rest hd
      obtain ⟨cut, ms, hcut, hes⟩ := hclose (room_of_enters hd)
      exact ⟨cut, ns ++ ms, hcut, fun tail ht => ⟨(hes tail ht).1, ms, rfl, (hes tail ht).2⟩⟩
    · rintro tail ns mid all rest hd ⟨ms, rfl, hms⟩
      exact .cons hd hms

end Elements

/-! ## The rules -/

section Calm

variable {t : Token}

theorem calmAfter_of_quiet (h : Quiet t) {id : RuleId} (hid : id ∉ [Place.statement, Place.following, Place.simple]) :
    CalmAfter l id t := by
  unfold CalmAfter
  split <;> first | exact h | exact absurd (by decide) hid

theorem operandRules_quiet (l : Level) :
    ∀ id ∈ operandRules l, id ∉ [Place.statement, Place.following, Place.simple] := by
  cases l <;> decide

theorem quiet_skips (h : Quiet t) : l.grammar.begins t Place.call = some false ∧
    l.grammar.begins t Place.moreParams = some false ∧ l.grammar.begins t Place.moreArguments = some false ∧
    l.grammar.begins t Place.otherwise = some false := by
  rw [begins_first l t (rfl : elementsAt l Place.call = _ :: _),
    begins_first l t (rfl : elementsAt l Place.moreParams = _ :: _),
    begins_first l t (rfl : elementsAt l Place.moreArguments = _ :: _),
    begins_first l t (rfl : elementsAt l Place.otherwise = _ :: _)]
  simp [h.call, h.comma, h.otherwise]

theorem closed_skips (h : opens l t = false) : l.grammar.begins t Place.statement = some false ∧
    l.grammar.begins t Place.arguments = some false := by
  rw [begins_eq, begins_statement, begins_arguments, h]
  exact ⟨rfl, rfl⟩

theorem quiet_mark {text : String} (h : text ∈ ["\x7d", ")", "\x7b"]) : Quiet (Token.identifier line text) := by
  simp only [List.mem_cons, List.not_mem_nil, or_false] at h
  rcases h with rfl | rfl | rfl <;> exact ⟨rfl, rfl, rfl, rfl⟩

end Calm

/-- after a rule that is the last element -/
theorem ready_last {calm : Token → Prop} {e : Element} (he : e.takes = false)
    (h : ∀ t, calm t → CalmAfterElement l e t) : Ready l line n calm [e] := .closed he (fun _ => .nil h) .nil

/-- what a rule leaves open at the end of a line can be closed, rule by rule -/
theorem ready (l : Level) (line n : Nat) {id : RuleId} (hp : id ≠ Place.program) (hf : id ≠ Place.following) :
    Ready l line n (CalmAfter l id) (elementsAt l id) := by
  have hopen : Quiet (Token.identifier line "\x7b") := quiet_mark (by decide)
  have hclose : Quiet (Token.identifier line ")") := quiet_mark (by decide)
  match id with
  | Place.expression => exact ready_last rfl fun t ht => ⟨ht, ht.operator⟩
  | Place.primary =>
    have hchoice : ∀ t, Quiet t → CalmAfterElement l (.choice (operandRules l)) t := fun t ht id hid =>
      calmAfter_of_quiet ht (operandRules_quiet l id hid)
    show Ready l line n Quiet (.choice (operandRules l) :: if l.hasFunctions then [.many Place.call] else [])
    split
    · exact .closed rfl (fun _ => .many (.nil fun t ht => ⟨hchoice t ht, (quiet_skips ht).1⟩))
        (ready_last rfl fun t ht => ⟨ht, (quiet_skips ht).1⟩)
    · exact ready_last rfl hchoice
  | Place.statement => exact ready_last rfl fun t ht id _ => calmAfter_of_closed ht id
  | Place.following => exact absurd rfl hf
  | Place.block =>
    have hbrace := opens_brace l line
    have hfollowing := begins_following l (Token.identifier line "\x7d")
    refine .taken rfl (by decide) (.closed rfl (fun _ => .many (.skip (by decide) ?_ (.nil fun _ _ => trivial)))
      (.closed rfl (fun _ => .skip (by decide) ?_ (.nil fun _ _ => trivial)) (.taken rfl (by decide) .nil)))
    · exact ⟨⟨hbrace, (closed_skips hbrace).1⟩, hfollowing⟩
    · exact ⟨hbrace, hfollowing⟩
  | Place.param => exact .taken rfl rfl .nil
  | Place.moreParams => exact .taken rfl (by decide) (ready_last rfl fun t ht => ht)
  | Place.params =>
    exact .closed rfl (fun _ => .many (.nil fun t ht => ⟨ht, (quiet_skips ht).2.1⟩))
      (ready_last rfl fun t ht => ⟨ht, (quiet_skips ht).2.1⟩)
  | Place.noParams => exact .nil
  | Place.parameters =>
    refine .taken rfl (by decide) (.closed rfl (fun _ => .skip (by decide) ?_ (.nil fun _ _ => trivial))
      (.taken rfl (by decide) .nil))
    exact fun id hid => calmAfter_of_quiet hclose (by revert id; decide)
  | Place.definition =>
    exact .taken rfl (by decide) (.taken rfl rfl (.closed rfl
      (fun hn => .block (hn rfl) hopen (.nil fun _ _ => trivial)) (ready_last rfl fun t ht => ht)))
  | Place.moreArguments => exact .taken rfl (by decide) (ready_last rfl fun t ht => ht)
  | Place.arguments =>
    exact .closed rfl (fun _ => .many (.nil fun t ht => ⟨ht, (quiet_skips ht).2.2.1⟩))
      (ready_last rfl fun t ht => ⟨ht, (quiet_skips ht).2.2.1⟩)
  | Place.noArguments => exact .nil
  | Place.call =>
    refine .taken rfl (by decide) (.closed rfl (fun _ => .skip (by decide) ?_ (.nil fun _ _ => trivial))
      (.taken rfl (by decide) .nil))
    exact fun id hid => calmAfter_of_quiet hclose (by revert id; decide)
  | Place.closure =>
    exact .taken rfl (by decide) (.closed rfl (fun hn => .block (hn rfl) hopen (.nil fun _ _ => trivial))
      (ready_last rfl fun t ht => ht))
  | Place.grouped =>
    exact .taken rfl (by decide) (.closed rfl (fun _ => .skip (by decide) hclose (.nil fun _ _ => trivial))
      (.taken rfl (by decide) .nil))
  | Place.number => exact .taken rfl rfl .nil
  | Place.name => exact .taken rfl rfl .nil
  | Place.string => exact .taken rfl rfl .nil
  | Place.negative => exact .taken rfl (by decide) (ready_last rfl fun t ht => ht)
  | Place.factor => exact ready_last rfl fun t ht id hid => calmAfter_of_quiet ht (by revert id; decide)
  | Place.otherwise => exact .taken rfl (by decide) (ready_last rfl fun t ht => ht)
  | Place.conditional =>
    have hskip : ∀ t, Quiet t → Quiet t ∧ l.grammar.begins t Place.otherwise = some false :=
      fun t ht => ⟨ht, (quiet_skips ht).2.2.2⟩
    exact .taken rfl (by decide) (.closed rfl
      (fun hn => .block (hn rfl) hopen (.optional (.nil fun t ht => ⟨trivial, (hskip t ht).2⟩)))
      (.closed rfl (fun _ => .optional (.nil hskip)) (ready_last rfl hskip)))
  | Place.loop =>
    exact .taken rfl (by decide) (.closed rfl (fun hn => .block (hn rfl) hopen (.nil fun _ _ => trivial))
      (ready_last rfl fun t ht => ht))
  | Place.simple =>
    have hskip : ∀ t, opens l t = false → Quiet t ∧ l.grammar.begins t Place.arguments = some false :=
      fun t ht => ⟨quiet_of_closed ht, (closed_skips ht).2⟩
    show Ready l line n (CalmAfter l Place.simple) (.rule Place.expression :: if l.hasFunctions then _ else [])
    split
    · exact .closed rfl (fun _ => .optional (.nil hskip)) (ready_last rfl hskip)
    · exact ready_last rfl fun t ht => (hskip t ht).1
  | Place.nothing => exact .nil
  | Place.program => exact absurd rfl hp
  | n + 28 => exact .nil

theorem calls_inner (l : Level) (id : RuleId) : ∀ e ∈ elementsAt l id, Place.program ∉ calls e := by
  have hall : ∀ id < 28, ∀ e ∈ elementsAt l id, Place.program ∉ calls e := by
    cases l <;> decide
  rcases Nat.lt_or_ge id 28 with hid | hid
  · exact hall id hid
  · obtain ⟨k, rfl⟩ := Nat.exists_eq_add_of_le' hid
    intro e he
    have hnil : elementsAt l (k + 28) = [] := rfl
    rw [hnil] at he
    cases he

/-- whether a statement begins is decided by the next line, if there is no token before it -/
theorem canBegin_statement_looks (l : Level) (e : ScanError) (later : Lines) :
    ∃ s', (l.grammar.canBegin Place.statement).run ⟨[], .error e :: later⟩ = .error (.raised (.scan e)) s' := by
  have hbegins : ∀ t, l.grammar.begins t Place.statement = some (opens l t) := fun t => by
    rw [begins_eq, begins_statement]
  rcases (l.grammar.built_canBegin Place.statement).looks with h | ⟨r, h⟩
  · exact h e later
  · have hno := h (ofTokens [])
    have hyes := h (ofTokens [Token.string 1 ""])
    rw [run_canBegin, hbegins] at hno hyes
    cases r with
    | error e => cases hno
    | ok b =>
      cases hno
      cases hyes

/-- at the end of the lines an optional statement waits, and may be left out -/
theorem optional_statement_waits {ι : Type} (budget : ι → Nat) :
    Fate line
      (fun i => l.grammar.parseElements (budget i) (l.grammar.parseRule (budget i) n) [.optional Place.statement])
      (Derives l.grammar n (.elements [.optional Place.statement])) (CalmAfter l Place.following) [] := by
  refine .waits [] [] nofun (fun i s e later hs => ?_) fun tail ht => ?_
  · obtain rfl := hs.eq_of_nil
    obtain ⟨s', hr⟩ := canBegin_statement_looks l e later
    exact ⟨s', by rw [parseElements, EStateM.run_bind, parseElement, EStateM.run_bind, Parsing.lift_self, hr]⟩
  · exact .cons (.skipped (closed_skips ht).1) .nil

/-- **Every rule has a fate on whole lines.** By induction on the room for nesting. A line end is taken only where
statements follow each other in a block, and there the block can be closed. -/
theorem rule_fate (l : Level) (line n : Nat) {id : RuleId} (hid : id ≠ Place.program) {ts : List Token} (hl : Lined ts)
    (hne : ts ≠ []) : RuleFate l line n id (CalmAfter l id) ts := by
  induction n generalizing id ts with
  | zero => exact .ask .peek hne (run_peek ts) (.fail rfl)
  | succ n ih =>
    have hrule : ∀ id ≠ Place.program, ∀ ts, Lined ts → ts ≠ [] → RuleFate l line n id (CalmAfter l id) ts :=
      fun id hid ts hl hne => ih hid hl hne
    have hsteady : ∀ e ∈ elementsAt l id, e.Steady l.grammar := elements_eq l id ▸ steady l id
    suffices h : Fate line
        (fun b : Room ts => l.grammar.parseElements b.1 (l.grammar.parseRule b.1 n) (elementsAt l id))
        (Derives l.grammar n (.elements (elementsAt l id))) (CalmAfter l id) ts by
      rw [← elements_eq] at h
      exact h.map _ fun _ _ _ hd => .rule hd
    by_cases hf : id = Place.following
    · -- the one rule that may end with the line, with nothing left for the optional statement
      subst hf
      obtain ⟨t, us, rfl⟩ := List.exists_cons_of_ne_nil hne
      refine taken_then rfl hl fun _ => ?_
      by_cases hus : us = []
      · subst hus
        exact optional_statement_waits _
      · refine elements_fate hrule (ready_last rfl fun t ht => ⟨ht, (closed_skips ht).1⟩) ?_ ?_
          (hl.suffix (List.suffix_cons t us)) hus
        · exact fun e he => calls_inner l Place.following e (List.mem_cons_of_mem _ he)
        · exact fun e he => hsteady e (List.mem_cons_of_mem _ he)
    · exact elements_fate hrule (ready l line n hid hf) (calls_inner l id) hsteady hl hne

/-! ## Statements -/

/-- what becomes of the statement that these lines begin with -/
inductive StatementFate (l : Level) (line : Nat) (ts : List Token) : Prop
  | complete (n : Node) (rest : List Token) : Passes (fun _ : Unit => (ofLevel l).parseStatement) ts n rest →
      (∀ tail, Derives l.grammar maxNesting (.rule Place.program) (ts ++ tail) [n] (rest ++ tail)) →
      StatementFate l line ts
  | wrong (e : Stop ParseError) : e.isUnexpectedEnd = false →
      Fails (fun _ : Unit => (ofLevel l).parseStatement) ts e → StatementFate l line ts
  | unfinished (cut : List Token) (n : Node) : (∀ t ∈ cut, Closer line t) →
      LooksPast (fun _ : Unit => (ofLevel l).parseStatement) ts →
      (∀ t : Token, t.lexeme = .lineEnd →
        Derives l.grammar maxNesting (.rule Place.program) (ts ++ (cut ++ [t])) [n] []) → StatementFate l line ts

/-- the nesting that is left inside a statement -/
def innerNesting : Nat := maxNesting - 1

theorem maxNesting_eq : maxNesting = innerNesting + 1 := rfl

theorem run_parseStatement (l : Level) (s : TokenStream) :
    (ofLevel l).parseStatement.run s = (do
        let ns ← l.grammar.parseElement (s.size + 1) (l.grammar.parseRule (s.size + 1) innerNesting)
          (.choice (programRules l))
        let t ← read
        if [";", Token.lineEndText].any t.isLiteral then return Build.collapse.make ns
        else fail (.unexpected t (some ";")) : Parsing Node).run s := by
  rw [parseStatement, program_eq, run_parse, maxNesting_eq]
  exact run_program l (s.size + 1) innerNesting s

/-- an alternative and a separator make a statement -/
theorem program_derives {ns : List Node} {t : Token} {rest : List Token}
    (h : Derives l.grammar innerNesting (.element (.choice (programRules l))) ts ns (t :: rest))
    (ht : [";", Token.lineEndText].any t.isLiteral = true) :
    Derives l.grammar maxNesting (.rule Place.program) ts [Build.collapse.make ns] rest := by
  have helements : Derives l.grammar innerNesting (.elements (l.grammar.rule Place.program).elements) ts
      (ns ++ ([] ++ [])) rest := by
    rw [elements_eq]
    exact .cons h (.cons (.literal ht) .nil)
  rw [List.append_nil, List.append_nil] at helements
  have hrule := Derives.rule helements
  rw [maxNesting_eq]
  rwa [build_eq] at hrule

/-- **Every statement has a fate on whole lines**: it is complete, or wrong, or it waits for more and can be finished.
-/
theorem statement_fate (l : Level) (line : Nat) (hl : Lined ts) (hne : ts ≠ []) : StatementFate l line ts := by
  have hsteady : (Element.choice (programRules l)).Steady l.grammar :=
    steady l Place.program _ (by rw [elements_eq]; exact List.mem_cons_self)
  have hchoice := element_fate (fun id hid ts hl hne => rule_fate l line innerNesting hid hl hne)
    (calls_inner l Place.program _ List.mem_cons_self) rfl hsteady hl hne
  have hroom : ∀ {s later}, Ahead s ts later → ts.length < s.size + 1 := fun hs => Nat.lt_succ_of_le hs.length_le
  cases hchoice with
  | passes ns left hleft hp hd =>
    obtain ⟨t, rest, rfl⟩ := List.exists_cons_of_ne_nil hleft
    have hchoice : Derives l.grammar innerNesting (.element (.choice (programRules l))) ts ns (t :: rest) := by
      simpa using hd []
    have ht := hl.unended t (hchoice.suffix.subset List.mem_cons_self)
    -- the separator is there, or another token is in its place
    rcases checked_fate (fun t => [";", Token.lineEndText].any t.isLiteral) (fun _ => Build.collapse.make ns) (some ";")
      ht rest _ (fun _ : Unit => rfl) with ⟨ha, hsep⟩ | ⟨e, he, hsep⟩
    · refine .complete (Build.collapse.make ns) rest (fun _ s later hs => ?_) fun tail => program_derives (hd tail) ha
      obtain ⟨s1, hr1, hs1⟩ := hp ⟨_, hroom hs⟩ s later hs
      obtain ⟨s2, hr2, hs2⟩ := hsep () s1 later hs1
      exact ⟨s2, by rw [run_parseStatement, EStateM.run_bind, hr1]; exact hr2, hs2⟩
    · refine .wrong (.raised e) he fun _ s later hs => ?_
      obtain ⟨s1, hr1, hs1⟩ := hp ⟨_, hroom hs⟩ s later hs
      obtain ⟨s2, hr2⟩ := hsep () s1 later hs1
      exact ⟨s2, by rw [run_parseStatement, EStateM.run_bind, hr1]; exact hr2⟩
  | fails e he hf =>
    refine .wrong e he fun _ s later hs => ?_
    obtain ⟨s', hr⟩ := hf ⟨_, hroom hs⟩ s later hs
    exact ⟨s', by rw [run_parseStatement, EStateM.run_bind, hr]⟩
  | waits cut ns hcut hlooks hd =>
    refine .unfinished cut (Build.collapse.make ns) hcut (fun _ s e later hs => ?_) fun t ht => ?_
    · obtain ⟨s', hr⟩ := hlooks ⟨_, hroom hs⟩ s e later hs
      exact ⟨s', by rw [run_parseStatement, EStateM.run_bind, hr]⟩
    · have hclosed : opens l t = false := by rw [opens, ht]
      refine program_derives (hd [t] fun id _ => calmAfter_of_closed hclosed id) ?_
      simp [Token.isLiteral, ht]

end Language

end Stone
