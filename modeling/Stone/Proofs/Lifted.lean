/-
Derivations of the basic level, at the levels with functions. These levels change rules that the basic level has: an
operand may have calls after it, a statement arguments, and there are further alternatives and one more reserved text.
Where none of this comes into play, a derivation of the basic level is a derivation there, with the same trees and the
same nesting.

What a rule could go on with is its `growth`. At the basic level the token after an expression or a statement never is
one that it could go on with: `kept_rule` checks this for all rules.

- `Derives.begins`: what has been read could begin.
- `Derives.lifted`: derivations of the basic level at a level with functions.
-/
import Stone.Proofs.Progress

namespace Stone

open TokenStream Parsing Grammar Stone.Language

/-! ## What has been read could begin -/

/-- lookahead goes from a rule to its first element -/
theorem begins_unfold (l : Level) (t : Token) (id : RuleId) :
    l.grammar.begins t id = match elementsAt l id with
      | [] => some true
      | e :: _ => elementBegins t (l.grammar.begins t) e := by
  obtain ⟨b, hb⟩ := begins_answered l t id
  rw [hb]
  rw [begins_eq, beginsWithin, elements_eq] at hb
  cases he : elementsAt l id with
  | nil => rw [he] at hb; exact hb.symm
  | cons e es =>
    rw [he] at hb
    refine (elementBegins_mono (fun id b hid => ?_) hb).symm
    rw [begins_eq]
    exact beginsWithin_mono (by decide) hid

/-- elements that do not leave it open whether they read something -/
def firm : Element → Bool
  | .optional _ | .many _ => false
  | _ => true

theorem firm_first (l : Level) : ∀ id, ∀ e ∈ (elementsAt l id).head?, firm e = true :=
  forall_places (by cases l <;> decide) fun _ _ he => by cases he

/-- the task can begin with the token -/
def Task.Begins (l : Level) (t : Token) : Task → Prop
  | rule id => l.grammar.begins t id = some true
  | element e | elements (e :: _) => firm e = true → elementBegins t (l.grammar.begins t) e = some true
  | _ => True

/-- **What has been read could begin** with its first token. -/
theorem Derives.begins {l : Level} {n : Nat} {task : Task} {ts rest : List Token} {ns : List Node}
    (h : Derives l.grammar n task ts ns rest) : task.Begins l (front ts) := by
  induction h with
  | @rule _ id _ _ _ _ ih =>
    rw [elements_eq] at ih
    rw [Task.Begins, begins_unfold]
    have hfirm := firm_first l id
    cases he : elementsAt l id with
    | nil => rfl
    | cons e es => rw [he] at ih hfirm; exact ih (hfirm e rfl)
  | cons _ _ ih1 _ => exact ih1
  | call _ ih => exact fun _ => ih
  | choice hc _ _ => exact fun _ => Option.map_eq_some_iff.2 ⟨_, hc, rfl⟩
  | token ha => exact fun _ => congrArg some ha
  | literal ha => exact fun _ => congrArg some ha
  | chain _ _ ih _ => exact fun _ => ih
  | skipped _ | taken _ _ _ => exact nofun
  | repetition _ _ => exact nofun
  | _ => exact trivial

/-! ## Names in trees -/

/-- a name leaf of the tree is spelled so -/
inductive Node.HasName (text : String) : Node → Prop
  | leaf {t : Token} : t.text = text → HasName text (.leaf .name t)
  | child {kind : ListKind} {n : Node} {children : List Node} :
      n ∈ children → HasName text n → HasName text (.list kind children)

section Names

variable {text : String} {n : Node} {ns : List Node}

theorem hasName_build {kind : ListKind} (hn : n ∈ ns) (h : n.HasName text) : (kind.build ns).HasName text := by
  unfold ListKind.build
  split
  · obtain rfl := List.mem_singleton.1 hn
    exact h
  · exact .child hn h

theorem hasName_make {b : Build} (hn : n ∈ ns) (h : n.HasName text) : (b.make ns).HasName text := by
  unfold Build.make
  split
  · exact hasName_build hn h
  · obtain rfl := List.mem_singleton.1 hn
    exact h
  · exact .child hn h

theorem not_hasName_of_vacuous (hv : n.isVacuous = true) : ¬ n.HasName text := by
  intro h
  cases h with
  | leaf _ => cases hv
  | @child kind m children hm _ =>
    cases children with
    | nil => cases hm
    | cons first more => cases kind <;> cases hv

/-- the tree of an operator chain has the names of its left side -/
theorem climb_hasName {g : Grammar} {k : Nat} {id : RuleId} {table : OperatorTable} {kind : ListKind}
    {waiting : Option Precedence} {left : Node} {ts rest : List Token}
    (h : Derives g k (.climb id table kind waiting left) ts ns rest) (hl : left.HasName text) :
    ∃ m ∈ ns, m.HasName text := by
  generalize ht : Task.climb id table kind waiting left = task at h
  induction h generalizing left waiting with
  | climbStop _ => cases ht; exact ⟨_, List.mem_cons_self, hl⟩
  | climbStep _ _ _ _ _ _ _ ih => cases ht; exact ih (hasName_build List.mem_cons_self hl) rfl
  | _ => cases ht

/-- so the left side has no name that the tree has not -/
theorem climb_free {g : Grammar} {k : Nat} {id : RuleId} {table : OperatorTable} {kind : ListKind}
    {waiting : Option Precedence} {left : Node} {ts rest : List Token}
    (h : Derives g k (.climb id table kind waiting left) ts ns rest) (hns : ∀ m ∈ ns, ¬ m.HasName text) :
    ∀ m ∈ [left], ¬ m.HasName text := by
  intro m hm hn
  obtain rfl := List.mem_singleton.1 hm
  obtain ⟨m', hm', hn'⟩ := climb_hasName h hn
  exact hns m' hm' hn'

/-- trees that are left out have no names -/
theorem free_of_kept {m : Node} (hns : ∀ m' ∈ if m.isVacuous then ns else m :: ns, ¬ m'.HasName text) :
    ∀ m' ∈ m :: ns, ¬ m'.HasName text := by
  cases hv : m.isVacuous with
  | true =>
    rw [hv] at hns
    exact List.forall_mem_cons.2 ⟨not_hasName_of_vacuous hv, hns⟩
  | false =>
    rw [hv] at hns
    exact hns

end Names

/-! ## Rules of two levels -/

namespace Language

/-- the alternatives of a level in place of those of the basic level: two choices have one more -/
def liftIds (l : Level) (ids : List RuleId) : List RuleId :=
  if ids = operandRules .basic then operandRules l else if ids = programRules .basic then programRules l else ids

/-- the element of a level in place of one of the basic level -/
def lift (l : Level) : Element → Element
  | .choice ids => .choice (liftIds l ids)
  | .token (.identifier reserved) kind =>
    .token (.identifier (reserved ++ if l.hasFunctions then [")"] else [])) kind
  | e => e

/-- what a level adds to a rule of the basic level -/
def added (l : Level) : RuleId → List Element
  | Place.primary => if l.hasFunctions then [.many Place.call] else []
  | Place.simple => if l.hasFunctions then [.optional Place.arguments] else []
  | _ => []

theorem elementsAt_lift (l : Level) : ∀ id, elementsAt l id = (elementsAt .basic id).map (lift l) ++ added l id :=
  forall_places (by cases l <;> decide +kernel) fun _ => rfl

theorem liftIds_eq (l : Level) (ids : List RuleId) :
    ∃ new, liftIds l ids = new ++ ids ∧ ∀ id ∈ new, id = Place.closure ∨ id = Place.definition := by
  unfold liftIds
  split
  · rename_i h
    exact ⟨if l.hasClosures then [Place.closure] else [], by rw [h]; rfl, fun id hid =>
      .inl (List.mem_singleton.1 (List.mem_ite_nil_right.1 hid).2)⟩
  · split
    · rename_i h
      exact ⟨if l.hasFunctions then [Place.definition] else [], by rw [h]; rfl, fun id hid =>
        .inr (List.mem_singleton.1 (List.mem_ite_nil_right.1 hid).2)⟩
    · exact ⟨[], rfl, nofun⟩

end Language

/-- a token that is neither of the words `def` and `fun` -/
def Familiar (t : Token) : Prop := t.isLiteral "def" = false ∧ t.isLiteral "fun" = false

section Lookahead

variable {l : Level} {t : Token} {id : RuleId}

theorem familiar_front {ts : List Token} (h : ∀ t ∈ ts, Familiar t) : Familiar (front ts) := by
  cases ts with
  | nil => exact ⟨rfl, rfl⟩
  | cons t ts => exact h t List.mem_cons_self

theorem begins_new (ht : Familiar t) (hid : id = Place.closure ∨ id = Place.definition) :
    l.grammar.begins t id = some false := by
  rcases hid with rfl | rfl
  · rw [begins_first l t (rfl : elementsAt l Place.closure = _ :: _)]
    simp [ht.2]
  · rw [begins_first l t (rfl : elementsAt l Place.definition = _ :: _)]
    simp [ht.1]

theorem firstThat_append {begins : RuleId → Option Bool} {new : List RuleId} (h : ∀ id ∈ new, begins id = some false)
    (ids : List RuleId) : firstThat begins (new ++ ids) = firstThat begins ids := by
  induction new with
  | nil => rfl
  | cons id new ih =>
    obtain ⟨hid, hnew⟩ := List.forall_mem_cons.1 h
    rw [List.cons_append, firstThat_cons hid]
    exact ih hnew

theorem firstThat_none {begins : RuleId → Option Bool} {ids : List RuleId} :
    firstThat begins ids = some none ↔ ∀ id ∈ ids, begins id = some false := by
  induction ids with
  | nil => simp [firstThat]
  | cons id more ih =>
    rw [List.forall_mem_cons, ← ih, firstThat]
    cases begins id with
    | none => simp
    | some b => cases b <;> simp

/-- new alternatives are not chosen -/
theorem chosen_liftIds (ht : Familiar t) (ids : List RuleId) :
    l.grammar.chosen t (liftIds l ids) = firstThat (l.grammar.begins t) ids := by
  obtain ⟨new, hnew, hids⟩ := liftIds_eq l ids
  rw [hnew, chosen, firstThat_append fun id hid => begins_new ht (hids id hid)]

/-- what cannot begin without functions cannot begin with them -/
theorem begins_false_lift (ht : Familiar t) {k : Nat} (h : Level.basic.grammar.beginsWithin t k id = some false) :
    l.grammar.begins t id = some false := by
  induction k generalizing id with
  | zero => cases h
  | succ k ih =>
    rw [beginsWithin, elements_eq] at h
    rw [begins_unfold, elementsAt_lift]
    cases he : elementsAt .basic id with
    | nil => rw [he] at h; cases h
    | cons e es =>
      rw [he] at h
      rw [List.map_cons, List.cons_append]
      cases e with
      | rule id | optional id | many id | operators id _ _ => exact ih h
      | literal _ _ => exact h
      | choice ids =>
        obtain ⟨o, ho, hnone⟩ := Option.map_eq_some_iff.1 h
        obtain rfl : o = none := by simpa using hnone
        have hnone := firstThat_none.2 fun id hid => ih (firstThat_none.1 ho id hid)
        exact Option.map_eq_some_iff.2 ⟨none, (chosen_liftIds ht ids).trans hnone, rfl⟩
      | token cls kind =>
        cases cls with
        | number | string => exact h
        | identifier reserved =>
          refine congrArg some ?_
          have ha : (TokenClass.identifier reserved).accepts t = false := Option.some.inj h
          obtain ⟨line, x⟩ := t
          cases x with
          | identifier text =>
            simp only [TokenClass.accepts, Bool.not_eq_false', List.contains_eq_mem, decide_eq_true_eq] at ha ⊢
            exact List.mem_append_left _ ha
          | _ => rfl

/-- the choice is the same, if what is chosen can begin -/
theorem chosen_lift {ids : List RuleId} (ht : Familiar t) (hc : Level.basic.grammar.chosen t ids = some (some id))
    (hb : l.grammar.begins t id = some true) : l.grammar.chosen t (liftIds l ids) = some (some id) := by
  rw [chosen_liftIds ht]
  rw [chosen] at hc
  induction ids with
  | nil => cases hc
  | cons first ids ih =>
    obtain ⟨b, hfirst⟩ := begins_answered .basic t first
    rw [firstThat_cons hfirst] at hc
    cases b with
    | true =>
      cases hc
      rw [firstThat_cons hb]
      rfl
    | false =>
      rw [begins_eq] at hfirst
      rw [firstThat_cons (begins_false_lift ht hfirst)]
      exact ih hc

end Lookahead

/-! ## Growth -/

/-- what a rule can go on with at a level with functions, after the place where it ends without them -/
inductive Growth where
  /-- with nothing -/
  | fixed
  /-- with calls -/
  | calls
  /-- with calls and arguments -/
  | arguments
deriving DecidableEq

namespace Growth

variable {l : Level} {c d : Growth} {t : Token} {text : String}

def rank : Growth → Nat
  | fixed => 0
  | calls => 1
  | arguments => 2

/-- the token is none to go on with -/
def stops (l : Level) (t : Token) : Growth → Bool
  | fixed => true
  | calls => !t.isLiteral "("
  | arguments => !opens l t

/-- the literal is none to go on with -/
def stopsAt (l : Level) (text : String) : Growth → Bool
  | fixed => true
  | calls => text != "("
  | arguments => (reservedTexts l).contains text

theorem stops_of_le (h : c.rank ≤ d.rank) (hd : d.stops l t = true) : c.stops l t = true := by
  cases c with
  | fixed => rfl
  | calls =>
    cases d with
    | fixed => exact absurd h (by decide)
    | calls => exact hd
    | arguments =>
      rw [stops, Bool.not_eq_true'] at hd
      rw [stops, (quiet_of_closed hd).call]
      rfl
  | arguments =>
    cases d with
    | arguments => exact hd
    | _ => exact absurd h (by decide)

theorem stops_of_text (h : c.stopsAt l text = true) (ht : t.isLiteral text = true) : c.stops l t = true := by
  obtain ⟨line, x⟩ := t
  cases c with
  | fixed => rfl
  | calls =>
    cases x <;> simp [Token.isLiteral, stops, stopsAt, Token.lineEndText] at ht h ⊢
    rwa [ht]
  | arguments =>
    cases x with
    | identifier s =>
      obtain rfl : s = text := by simpa [Token.isLiteral] using ht
      rw [stops, Bool.not_eq_true', opens, Bool.not_eq_false']
      exact h
    | lineEnd => rfl
    | _ => simp [Token.isLiteral] at ht

theorem stops_of_texts {texts : List String} (h : texts.all (c.stopsAt l ·) = true)
    (ht : texts.any t.isLiteral = true) : c.stops l t = true := by
  obtain ⟨text, hmem, htext⟩ := List.any_eq_true.1 ht
  exact stops_of_text (List.all_eq_true.1 h text hmem) htext

/-- operators are none to go on with -/
theorem stops_of_operator {p : Precedence} (h : c.rank ≤ calls.rank) (ho : operatorOf .standard t = some p) :
    c.stops l t = true := by
  refine stops_of_le h ?_
  obtain ⟨line, x⟩ := t
  cases x with
  | identifier s =>
    by_cases hs : s = "("
    · subst hs; cases ho
    · simp [stops, Token.isLiteral, hs]
  | _ => cases ho

end Growth

namespace Language

def growth : RuleId → Growth
  | Place.expression | Place.primary | Place.negative | Place.factor | Place.moreArguments | Place.arguments => .calls
  | Place.statement | Place.following | Place.simple => .arguments
  | _ => .fixed

/-- what an element can go on with -/
def growthOf : Element → Growth
  | .rule id | .optional id | .many id | .operators id _ _ => growth id
  | .choice ids => (ids.map growth).foldr (fun c d => if c.rank ≤ d.rank then d else c) .fixed
  | .token _ _ | .literal _ _ => .fixed

/-- the rule begins with a literal that is none to go on with -/
def stoppedByRule (l : Level) (c : Growth) (id : RuleId) : Bool :=
  match elementsAt .basic id with
  | .literal texts _ :: _ => texts.all (c.stopsAt l ·)
  | _ => c == .fixed

/-- these elements, before whatever stops `outer`, begin with nothing to go on with -/
def stoppedBy (l : Level) (c outer : Growth) : List Element → Bool
  | [] => c.rank ≤ outer.rank
  | .literal texts _ :: _ => texts.all (c.stopsAt l ·)
  | .rule id :: _ => stoppedByRule l c id
  | .many id :: es => stoppedByRule l c id && stoppedBy l c outer es
  | _ :: _ => c == .fixed

/-- nothing inside the element goes on with anything, and all identifiers that it reads are names -/
def keptElement (l : Level) (e : Element) : Bool :=
  !(calls e).contains Place.definition &&
    match e with
    | .many id => stoppedByRule l (growth id) id
    | .operators id table _ => table = .standard && (growth id).rank ≤ Growth.calls.rank
    | .token (.identifier _) kind => kind = .name
    | _ => true

/-- nothing inside the elements goes on with anything, before whatever stops `outer` -/
def kept (l : Level) (outer : Growth) : List Element → Bool
  | [] => true
  | e :: es => keptElement l e && stoppedBy l (growthOf e) outer es && kept l outer es

theorem kept_rule (l : Level) : ∀ id, id ≠ Place.definition → kept l (growth id) (elementsAt .basic id) = true :=
  forall_places (by cases l <;> decide +kernel) fun _ _ => rfl

end Language

section Growing

variable {l : Level} {c outer : Growth} {n : Nat} {ts mid rest : List Token} {ns ms : List Node}

theorem growth_le_choice {ids : List RuleId} {id : RuleId} (h : id ∈ ids) :
    (growth id).rank ≤ (growthOf (.choice ids)).rank := by
  rw [growthOf]
  induction ids with
  | nil => cases h
  | cons first ids ih =>
    rw [List.map_cons, List.foldr_cons]
    rcases List.mem_cons.1 h with rfl | h <;> split
    · assumption
    · exact Nat.le_refl _
    · exact ih h
    · exact (ih h).trans (Nat.le_of_lt (Nat.lt_of_not_le ‹_›))

/-- a rule that begins with nothing to go on with stops what comes before it -/
theorem stops_of_begins {id : RuleId} {t : Token} (h : stoppedByRule l c id = true)
    (hb : Level.basic.grammar.begins t id = some true) : c.stops l t = true := by
  unfold stoppedByRule at h
  split at h
  · rename_i texts keep es he
    rw [begins_first .basic t he] at hb
    exact Growth.stops_of_texts h (Option.some.inj hb)
  · rw [eq_of_beq h]
    rfl

theorem stops_front {es : List Element} (h : stoppedBy l c outer es = true)
    (hd : Derives Level.basic.grammar n (.elements es) mid ms rest) (hrest : outer.stops l (front rest) = true) :
    c.stops l (front mid) = true := by
  induction es generalizing mid ms with
  | nil =>
    cases hd
    exact Growth.stops_of_le (of_decide_eq_true h) hrest
  | cons e es ih =>
    cases hd with
    | cons h1 h2 =>
      cases e with
      | literal texts keep =>
        cases h1 with
        | literal ha => exact Growth.stops_of_texts h ha
      | rule id => exact stops_of_begins h (h1.begins rfl)
      | many id =>
        obtain ⟨hid, hes⟩ := Bool.and_eq_true_iff.1 h
        cases h1 with
        | repetition h1 =>
          cases h1 with
          | manyNil _ => exact ih hes h2
          | manyCons hb _ _ => exact stops_of_begins hid hb
      | choice _ | optional _ | token _ _ | operators _ _ _ =>
        rw [eq_of_beq h]
        rfl

/-- what a level adds reads nothing before a token to stop at -/
theorem derives_added {id : RuleId} (h : (growth id).stops l (front rest) = true) :
    Derives l.grammar n (.elements (added l id)) rest [] rest := by
  unfold added
  split
  · split
    · refine .cons (.repetition (.manyNil ?_)) .nil
      rw [begins_first l _ (rfl : elementsAt l Place.call = _ :: _)]
      simpa [Growth.stops, growth] using h
    · exact .nil
  · split
    · refine .cons (.skipped ?_) .nil
      rw [begins_arguments]
      simpa [Growth.stops, growth] using h
    · exact .nil
  · exact .nil

theorem Derives.append {g : Grammar} {es es' : List Element} (h : Derives g n (.elements es) ts ns mid)
    (h' : Derives g n (.elements es') mid ms rest) : Derives g n (.elements (es ++ es')) ts (ns ++ ms) rest := by
  induction es generalizing ts ns with
  | nil => cases h; exact h'
  | cons e es ih =>
    cases h with
    | cons h1 h2 =>
      rw [List.append_assoc]
      exact .cons h1 (ih h2)

end Growing

/-! ## Lifting -/

/-- the task at a level, in place of one of the basic level -/
def Task.lift (l : Level) : Task → Task
  | element e => element (Language.lift l e)
  | elements es => elements (es.map (Language.lift l))
  | task => task

/-- nothing inside the task goes on with anything, before whatever stops `outer` -/
def Task.Kept (l : Level) (outer : Growth) : Task → Prop
  | rule id => id ≠ Place.definition ∧ (growth id).rank ≤ outer.rank
  | element e => keptElement l e = true ∧ (growthOf e).rank ≤ outer.rank
  | elements es => kept l outer es = true
  | many id => keptElement l (.many id) = true ∧ (growth id).rank ≤ outer.rank
  | climb id table kind _ _ => keptElement l (.operators id table kind) = true ∧ (growth id).rank ≤ outer.rank

section Lifting

variable {l : Level} {outer : Growth} {n : Nat}

theorem ne_definition {e : Element} {id : RuleId} (h : keptElement l e = true) (hid : id ∈ calls e) :
    id ≠ Place.definition := by
  rintro rfl
  have hcalls := (Bool.and_eq_true_iff.1 h).1
  rw [Bool.not_eq_true', ← Bool.not_eq_true, List.contains_iff_mem] at hcalls
  exact hcalls hid

theorem accepts_lift {reserved : List String} {t : Token} (h : (TokenClass.identifier reserved).accepts t = true)
    (hname : ¬ (Node.leaf .name t).HasName ")") :
    (TokenClass.identifier (reserved ++ if l.hasFunctions then [")"] else [])).accepts t = true := by
  obtain ⟨line, x⟩ := t
  cases x with
  | identifier s =>
    have hs : s ≠ ")" := fun he => hname (.leaf he)
    simp only [TokenClass.accepts, Bool.not_eq_true', List.contains_eq_mem, decide_eq_false_iff_not,
      List.mem_append, not_or] at h ⊢
    refine ⟨h, fun hmem => hs ?_⟩
    exact List.mem_singleton.1 (List.mem_ite_nil_right.1 hmem).2
  | _ => cases h

/-- after an operand comes an operator, or what comes after the chain -/
theorem stops_of_climb {id : RuleId} {table : OperatorTable} {kind : ListKind} {waiting : Option Precedence}
    {left : Node} {mid rest : List Token} {ns : List Node}
    (hk : keptElement l (.operators id table kind) = true ∧ (growth id).rank ≤ outer.rank)
    (h : Derives Level.basic.grammar n (.climb id table kind waiting left) mid ns rest)
    (hrest : outer.stops l (front rest) = true) : (growth id).stops l (front mid) = true := by
  cases h with
  | climbStop _ => exact Growth.stops_of_le hk.2 hrest
  | climbStep ho _ _ _ _ =>
    obtain ⟨htable, hrank⟩ : table = .standard ∧ (growth id).rank ≤ Growth.calls.rank := by
      simpa [keptElement] using (Bool.and_eq_true_iff.1 hk.1).2
    exact Growth.stops_of_operator hrank (htable ▸ ho)

/-- **Derivations of the basic level at another one.** They are the same there if no token is a new word, no name is a
closing parenthesis and the next token is none to go on with. -/
theorem Derives.lifted {task : Task} {ts rest : List Token} {ns : List Node}
    (h : Derives Level.basic.grammar n task ts ns rest) (hk : task.Kept l outer) (hts : ∀ t ∈ ts, Familiar t)
    (hns : ∀ m ∈ ns, ¬ m.HasName ")") (hrest : outer.stops l (front rest) = true) :
    Derives l.grammar n (task.lift l) ts ns rest := by
  have hafter : ∀ {us mid : List Token}, mid <:+ us → (∀ t ∈ us, Familiar t) → ∀ t ∈ mid, Familiar t :=
    fun hsuffix h t ht => h t (hsuffix.subset ht)
  induction h generalizing outer with
  | @rule n id ts rest ns h ih =>
    have hstops := Growth.stops_of_le hk.2 hrest
    have hkept := kept_rule l id hk.1
    rw [← elements_eq] at hkept
    have hd := ih hkept hts (fun m hm hn => hns _ List.mem_cons_self (hasName_make hm hn)) hstops
    have hall := hd.append (derives_added hstops)
    rw [elements_eq, ← elementsAt_lift, ← elements_eq, List.append_nil] at hall
    rw [build_eq, ← build_eq l]
    exact .rule hall
  | nil => exact .nil
  | @cons n e es ts mid rest ns ms h1 h2 ih1 ih2 =>
    obtain ⟨⟨he, hstopped⟩, hes⟩ : (keptElement l e = true ∧ stoppedBy l (growthOf e) outer es = true) ∧
        kept l outer es = true := by simpa [Task.Kept, kept] using hk
    have hmid := stops_front hstopped h2 hrest
    refine .cons (ih1 ⟨he, Nat.le_refl _⟩ hts (fun m hm => hns m (List.mem_append_left _ hm)) hmid) ?_
    exact ih2 hes (hafter h1.suffix hts) (fun m hm => hns m (List.mem_append_right _ hm)) hrest
  | @call n id ts rest ns _ ih => exact .call (ih ⟨ne_definition hk.1 List.mem_cons_self, hk.2⟩ hts hns hrest)
  | @choice n ids id ts rest ns hc _ ih =>
    have hid := (mem_of_firstThat hc).1
    have hd := ih ⟨ne_definition hk.1 hid, (growth_le_choice hid).trans hk.2⟩ hts hns hrest
    exact .choice (chosen_lift (familiar_front hts) hc hd.begins) hd
  | @skipped n id ts hb =>
    rw [begins_eq] at hb
    exact .skipped (begins_false_lift (familiar_front hts) hb)
  | @taken n id ts rest m hb _ ih =>
    have hd := ih ⟨ne_definition hk.1 List.mem_cons_self, hk.2⟩ hts (free_of_kept hns) hrest
    exact .taken hd.begins hd
  | repetition _ ih => exact .repetition (ih hk hts hns hrest)
  | @manyNil n id ts hb =>
    rw [begins_eq] at hb
    exact .manyNil (begins_false_lift (familiar_front hts) hb)
  | @manyCons n id ts mid rest m ns hb h1 h2 ih1 ih2 =>
    obtain ⟨hm, hns⟩ := List.forall_mem_cons.1 (free_of_kept hns)
    -- the next round begins with nothing to go on with, and so does what comes after the last one
    have hmid : (growth id).stops l (front mid) = true := by
      cases h2 with
      | manyNil _ => exact Growth.stops_of_le hk.2 hrest
      | manyCons hb' _ _ => exact stops_of_begins (Bool.and_eq_true_iff.1 hk.1).2 hb'
    have hd := ih1 ⟨ne_definition hk.1 List.mem_cons_self, Nat.le_refl _⟩ hts (List.forall_mem_singleton.2 hm) hmid
    exact .manyCons hd.begins hd (ih2 hk (hafter h1.suffix hts) hns hrest)
  | @token n cls kind t ts ha =>
    cases cls with
    | number | string => exact .token ha
    | identifier reserved =>
      obtain rfl : kind = .name := by simpa [keptElement] using (Bool.and_eq_true_iff.1 hk.1).2
      exact .token (accepts_lift ha (hns _ List.mem_cons_self))
  | literal ha => exact .literal ha
  | @chain n id table kind ts mid rest first ns h1 h2 ih1 ih2 =>
    have hd := ih1 ⟨ne_definition hk.1 List.mem_cons_self, Nat.le_refl _⟩ hts (climb_free h2 hns)
      (stops_of_climb hk h2 hrest)
    exact .chain hd (ih2 hk (hafter h1.suffix hts) hns hrest)
  | climbStop hs => exact .climbStop hs
  | @climbStep n id table kind waiting left first right op ts mid after rest ns p ho hy h1 h2 h3 ih1 ih2 ih3 =>
    -- the tree has the names of its right side, and this has those of its first operand
    have hright : ∀ m ∈ [right], ¬ m.HasName ")" := fun m hm hn =>
      climb_free h3 hns _ List.mem_cons_self (hasName_build (List.mem_cons_of_mem _ (List.mem_cons_of_mem _ hm)) hn)
    have hus : ∀ t ∈ ts, Familiar t := fun t ht => hts t (List.mem_cons_of_mem _ ht)
    have hafter3 := stops_of_climb hk h3 hrest
    have hd := ih1 ⟨ne_definition hk.1 List.mem_cons_self, Nat.le_refl _⟩ hus (climb_free h2 hright)
      (stops_of_climb ⟨hk.1, Nat.le_refl _⟩ h2 hafter3)
    exact .climbStep ho hy hd (ih2 ⟨hk.1, Nat.le_refl _⟩ (hafter h1.suffix hus) hright hafter3)
      (ih3 hk (hafter (h2.suffix.trans h1.suffix) hus) hns hrest)

end Lifting

end Stone
