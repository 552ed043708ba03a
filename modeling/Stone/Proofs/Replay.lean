/-
Parsing along a derivation. Given a derivation that reads some tokens, parsing is run on a first part of them, with its
own room for nesting. As long as it does not look past that part it does what the derivation says. It may find less room
than the derivation took (`deep`), and where it meets the end of a part that was cut off it can only stop there or go on
with nothing left (`starved`).

- `Derives.follows`: these are all the ways in which such a run ends.
- `Derives.run`: on all of its tokens and with enough room a derivation is carried out.

Tables have to be steady for this: an optional or repeated rule cannot begin at the end of input, an alternative that can
is the empty rule, and every round of a repetition takes a token.
-/
import Stone.Proofs.Derivation

namespace Stone

open TokenStream Parsing Grammar

/-! ## Steady tables -/

namespace Element

/-- does the element take a token in any case -/
def takes : Element → Bool
  | token _ _ => true
  | literal _ _ => true
  | _ => false

/-- does the element behave at the end of input -/
def Steady (g : Grammar) : Element → Prop
  | choice ids => ∀ id ∈ ids,
    g.begins Token.inputEnd id = some false ∨ g.begins Token.inputEnd id = some true ∧ (g.rule id).elements = []
  | optional id => g.begins Token.inputEnd id = some false
  | many id => g.begins Token.inputEnd id = some false ∧ ((g.rule id).elements.head?.any takes) = true
  | _ => True

end Element

/-- every element of every rule is steady -/
def Grammar.Steady (g : Grammar) : Prop := ∀ id, ∀ e ∈ (g.rule id).elements, e.Steady g

/-- the elements of the task are steady -/
def Task.Steady (g : Grammar) : Task → Prop
  | element e => e.Steady g
  | elements es => ∀ e ∈ es, e.Steady g
  | many id => (Element.many id).Steady g
  | _ => True

/-! ## Ends of a run -/

abbrev Ending (α : Type) := EStateM.Result (Stop ParseError) TokenStream α

/-- failures where nothing is left to read: for that, or for want of room -/
def StarvesBy (deep : Prop) : Stop ParseError → Prop
  | .raised (.unexpected t _) => t = Token.inputEnd
  | .raised (.tooDeep _) => deep
  | _ => False

/-- the run has nothing left to read: it fails, or it goes on at the end of input -/
def Starves {α : Type} (deep : Prop) : Ending α → Prop
  | .ok _ s => s = ofTokens []
  | .error e _ => StarvesBy deep e

/-- how a run ends on a first part of the tokens of a derivation that gives `a` and leaves `rest`; `cut` is the part that
the run does not have -/
inductive Follows {α : Type} (deep : Prop) (cut : List Token) (a : α) (rest : List Token) : Ending α → Prop
  | same (left : List Token) : rest = left ++ cut → Follows deep cut a rest (.ok a (ofTokens left))
  | deep {line : Nat} {s : TokenStream} : deep → Follows deep cut a rest (.error (.raised (.tooDeep line)) s)
  | starved {r : Ending α} : cut ≠ [] → Starves deep r → Follows deep cut a rest r

section Bind

variable {α β : Type} {deep : Prop} {cut mid rest : List Token} {a : α} {b : β} {p : Parsing α} {f : α → Parsing β}
  {s : TokenStream}

theorem Starves.bind (hp : Starves deep (p.run s)) (hf : ∀ a, Starves deep ((f a).run (ofTokens []))) :
    Starves deep ((p >>= f).run s) := by
  rw [EStateM.run_bind]
  cases h : p.run s with
  | ok a s' =>
    rw [h] at hp
    obtain rfl : s' = ofTokens [] := hp
    exact hf a
  | error e s' => rw [h] at hp; exact hp

theorem Starves.imp {deep deep' : Prop} (hd : deep → deep') {r : Ending α} (h : Starves deep r) : Starves deep' r := by
  cases r with
  | ok a s => exact h
  | error e s =>
    cases e with
    | endless => exact h
    | raised e =>
      cases e with
      | unexpected t expected => exact h
      | tooDeep line => exact hd h
      | scan e => exact h

theorem Follows.imp {deep' : Prop} (hd : deep → deep') {r : Ending α} (h : Follows deep cut a rest r) :
    Follows deep' cut a rest r := by
  cases h with
  | same left hl => exact .same left hl
  | deep h => exact .deep (hd h)
  | starved hc hs => exact .starved hc (hs.imp hd)

theorem Follows.bind (hp : Follows deep cut a mid (p.run s))
    (hf : ∀ left, mid = left ++ cut → Follows deep cut b rest ((f a).run (ofTokens left)))
    (hs : cut ≠ [] → ∀ a, Starves deep ((f a).run (ofTokens []))) : Follows deep cut b rest ((p >>= f).run s) := by
  rw [EStateM.run_bind]
  generalize hr : p.run s = r at hp
  cases hp with
  | same left hl => exact hf left hl
  | deep h => exact .deep h
  | starved hc h =>
    refine .starved hc ?_
    have := Starves.bind (s := s) (f := f) (hr ▸ h) (hs hc)
    rwa [EStateM.run_bind, hr] at this

/-- a question that leaves the tokens as they are -/
theorem run_bind_answer {ts : List Token} {x : α} (h : p.run s = answer ts (some x)) :
    (p >>= f).run s = (f x).run (ofTokens ts) := by
  rw [EStateM.run_bind, h]
  rfl

end Bind

/-! ## At the end of input -/

section Starving

variable {g : Grammar} {n m budget fuel : Nat} {task : Task} {ts rest : List Token} {ns : List Node}

theorem Derives.room {id : RuleId} (h : Derives g n (.rule id) ts ns rest) : 0 < n := by
  cases h with
  | rule _ => omega

theorem operatorOf_inputEnd (table : OperatorTable) : operatorOf table Token.inputEnd = none := rfl

theorem accepts_inputEnd (cls : TokenClass) : cls.accepts Token.inputEnd = false := by
  cases cls <;> rfl

theorem isLiteral_inputEnd (texts : List String) : texts.any Token.inputEnd.isLiteral = false := by
  simp [Token.isLiteral, Token.inputEnd]

/-- an operator chain goes no further at the end of input -/
theorem climb_starves (deep : Prop) (table : OperatorTable) (kind : ListKind) (operand : Parsing Node)
    (waiting : Option Precedence) (left : Node) (hf : 0 < fuel) :
    Starves deep ((climb table kind operand fuel waiting left).run (ofTokens [])) := by
  obtain ⟨k, rfl⟩ : ∃ k, fuel = k + 1 := ⟨fuel - 1, by omega⟩
  rw [climb, Parsing.lift_self, EStateM.run_bind, run_nextOperator]
  rfl

theorem many_starves (deep : Prop) {id : RuleId} (parse : Parsing Node)
    (hb : g.begins Token.inputEnd id = some false) (hf : 0 < fuel) :
    Starves deep ((parseMany (g.canBegin id) parse fuel).run (ofTokens [])) := by
  obtain ⟨k, rfl⟩ : ∃ k, fuel = k + 1 := ⟨fuel - 1, by omega⟩
  rw [parseMany, Parsing.lift_self, run_bind_answer ((run_canBegin g [] id).trans (congrArg _ hb))]
  rfl

/-- of the alternatives only an empty rule can be chosen at the end of input -/
theorem chosen_inputEnd {ids : List RuleId} (h : (Element.choice ids).Steady g) :
    g.chosen Token.inputEnd ids = some none ∨
      ∃ id, g.chosen Token.inputEnd ids = some (some id) ∧ (g.rule id).elements = [] := by
  induction ids with
  | nil => exact .inl rfl
  | cons id more ih =>
    rcases h id List.mem_cons_self with hb | ⟨hb, he⟩
    · rcases ih fun i hi => h i (List.mem_cons_of_mem _ hi) with hn | ⟨i, hi, he⟩
      · exact .inl (by simpa [chosen, firstThat, hb] using hn)
      · exact .inr ⟨i, by simpa [chosen, firstThat, hb] using hi, he⟩
    · exact .inr ⟨id, by simp [chosen, firstThat, hb], he⟩

/-- a rule without elements reads nothing, if there is room for it -/
theorem empty_starves {id : RuleId} (he : (g.rule id).elements = []) (hm : 0 < m) :
    Starves (n < m) ((g.parseRule budget n id).run (ofTokens [])) := by
  cases n with
  | zero => exact hm
  | succ n =>
    rw [parseRule, parseInside]
    simp only [he]
    rfl

/-- a tree and the list of it end in the same way -/
theorem starves_one {deep : Prop} {p : Parsing Node} {s : TokenStream}
    (h : Starves deep ((do return [← p] : Parsing (List Node)).run s)) : Starves deep (p.run s) := by
  rw [EStateM.run_bind] at h
  cases hr : p.run s with
  | ok a s' => rw [hr] at h; exact h
  | error e s' => rw [hr] at h; exact h

/-- **Parsing at the end of input.** What has been read from other tokens cannot be read here, but parsing does not go
deeper than it went there. -/
theorem Derives.starves (h : Derives g m task ts ns rest) (hg : g.Steady) (ht : task.Steady g) (hb : 0 < budget)
    (hf : 0 < fuel) : Starves (n < m) ((task.run g budget n fuel).run (ofTokens [])) := by
  induction h generalizing n fuel with
  | @rule k id _ _ _ _ ih =>
    cases n with
    | zero => exact Nat.zero_lt_succ k
    | succ n =>
      refine Starves.bind (Starves.bind ?_ fun _ => rfl) fun _ => rfl
      exact (ih (hg id) hb).imp Nat.succ_lt_succ
  | nil => rfl
  | cons _ _ ih1 ih2 =>
    refine Starves.bind (ih1 (ht _ List.mem_cons_self) hb) fun _ => Starves.bind ?_ fun _ => rfl
    exact ih2 (fun e he => ht e (List.mem_cons_of_mem _ he)) hb
  | call _ ih => exact ih trivial hb
  | choice _ hr _ =>
    rcases chosen_inputEnd ht with hn | ⟨id, hi, he⟩
    · simp only [Task.run, parseElement, Parsing.lift_self]
      rw [run_bind_answer ((run_choose g [] _).trans (congrArg _ hn))]
      rfl
    · simp only [Task.run, parseElement, Parsing.lift_self]
      rw [run_bind_answer ((run_choose g [] _).trans (congrArg _ hi))]
      exact Starves.bind (empty_starves he hr.room) fun _ => rfl
  | skipped _ =>
    simp only [Task.run, parseElement, Parsing.lift_self]
    rw [run_bind_answer ((run_canBegin g [] _).trans (congrArg _ ht))]
    rfl
  | taken _ _ _ =>
    simp only [Task.run, parseElement, Parsing.lift_self]
    rw [run_bind_answer ((run_canBegin g [] _).trans (congrArg _ ht))]
    rfl
  | repetition _ _ => exact many_starves _ _ ht.1 hb
  | manyNil _ => exact many_starves _ _ ht.1 hf
  | manyCons _ _ _ _ _ => exact many_starves _ _ ht.1 hf
  | @token _ cls _ _ _ _ =>
    simp only [Task.run, parseElement, Parsing.lift_self, EStateM.run_bind, run_read, front_nil, accepts_inputEnd cls]
    rfl
  | @literal _ texts _ _ _ _ =>
    simp only [Task.run, parseElement, Parsing.lift_self, EStateM.run_bind, run_read, front_nil, isLiteral_inputEnd texts]
    rfl
  | chain _ _ ih1 _ =>
    refine Starves.bind (starves_one (ih1 trivial hf)) fun _ => Starves.bind ?_ fun _ => rfl
    exact climb_starves _ _ _ _ _ _ hb
  | climbStop _ => exact Starves.bind (climb_starves _ _ _ _ _ _ hf) fun _ => rfl
  | climbStep _ _ _ _ _ _ _ _ => exact Starves.bind (climb_starves _ _ _ _ _ _ hf) fun _ => rfl

end Starving

/-! ## On a first part of the tokens -/

section Following

variable {g : Grammar} {n m budget fuel : Nat} {task : Task} {ts cut rest : List Token} {ns : List Node}

theorem follows_one {deep : Prop} {a : Node} {p : Parsing Node} {s : TokenStream}
    (h : Follows deep cut [a] rest ((do return [← p] : Parsing (List Node)).run s)) :
    Follows deep cut a rest (p.run s) := by
  have hs : Starves deep ((do return [← p] : Parsing (List Node)).run s) → Starves deep (p.run s) := starves_one
  rw [EStateM.run_bind] at h hs
  cases hr : p.run s with
  | ok b s' =>
    rw [hr] at h hs
    generalize he : (pure [b] : Parsing (List Node)).run s' = r at h hs
    cases h with
    | same left hl => cases he; exact .same left hl
    | starved hc h => subst he; exact .starved hc (hs h)
  | error e s' =>
    rw [hr] at h hs
    generalize he : (EStateM.Result.error e s' : Ending (List Node)) = r at h hs
    cases h with
    | deep h => cases he; exact .deep h
    | starved hc h => subst he; exact .starved hc (hs h)

/-- a rule that begins with a token takes at least that -/
theorem Derives.takes {id : RuleId} (h : Derives g m (.rule id) ts ns rest)
    (ht : ((g.rule id).elements.head?.any Element.takes) = true) : rest.length < ts.length := by
  cases h with
  | rule h =>
    cases he : (g.rule id).elements with
    | nil => rw [he] at ht; cases ht
    | cons e es =>
      rw [he] at ht h
      cases h with
      | cons h1 h2 =>
        have := h2.suffix.length_le
        cases h1 with
        | token _ => simp only [List.length_cons]; omega
        | literal _ => simp only [List.length_cons]; omega
        | _ => cases ht

theorem front_append (h : ts ≠ [] ∨ cut = []) : front (ts ++ cut) = front ts := by
  cases ts with
  | cons t ts => rfl
  | nil => rcases h with h | rfl; exact absurd rfl h; rfl

/-- a part of the tokens before a cut is no longer than the part it is left of -/
theorem length_left {left mid : List Token} (hm : mid <:+ ts ++ cut) (hl : mid = left ++ cut) :
    left.length ≤ ts.length := by
  have := hm.length_le
  rw [hl] at this
  simpa using this

theorem cons_of_append {t : Token} {us : List Token} (hc : ts ≠ [] ∨ cut = []) (h : ts ++ cut = t :: us) :
    ∃ ts', ts = t :: ts' ∧ us = ts' ++ cut := by
  cases ts with
  | nil =>
    rcases hc with hc | rfl
    · exact absurd rfl hc
    · cases h
  | cons u ts => cases h; exact ⟨ts, rfl, rfl⟩

/-- on every first part of `all` before `cut` the task is done as the derivation says -/
def Carried (g : Grammar) (budget : Nat) (cut : List Token) (m : Nat) (task : Task) (all : List Token)
    (ns : List Node) (rest : List Token) : Prop :=
  ∀ ts n fuel, ts ++ cut = all → ts.length < budget → ts.length < fuel → task.Steady g →
    Follows (n < m) cut ns rest ((task.run g budget n fuel).run (ofTokens ts))

/-- where nothing is left before a cut, `starves` has the answer -/
theorem carried_of_inside {all : List Token} (h : Derives g m task all ns rest) (hg : g.Steady)
    (hi : ∀ ts n fuel, ts ++ cut = all → (ts ≠ [] ∨ cut = []) → ts.length < budget → ts.length < fuel →
      task.Steady g → Follows (n < m) cut ns rest ((task.run g budget n fuel).run (ofTokens ts))) :
    Carried g budget cut m task all ns rest := by
  intro ts n fuel hts hb hf ht
  by_cases hc : ts ≠ [] ∨ cut = []
  · exact hi ts n fuel hts hc hb hf ht
  · have h1 : ts = [] := Classical.byContradiction fun h => hc (.inl h)
    have h2 : cut ≠ [] := fun h => hc (.inr h)
    subst h1
    exact .starved h2 (h.starves hg ht hb hf)

theorem run_climb_step {table : OperatorTable} {kind : ListKind} {operand : Parsing Node} {k : Nat}
    {waiting : Option Precedence} {left : Node} {op : Token} {p : Precedence} (ho : operatorOf table op = some p)
    (hy : yields waiting p = true) :
    (climb table kind operand (k + 1) waiting left).run (ofTokens (op :: ts)) =
      (do
        let first ← operand
        let right ← climb table kind operand k (some p) first
        climb table kind operand k waiting (kind.build [left, .leaf .mark op, right])).run (ofTokens ts) := by
  rw [climb, Parsing.lift_self, EStateM.run_bind, run_nextOperator, front_cons, ho]
  simp only [hy, if_true]
  rw [EStateM.run_bind, Parsing.lift_self, run_read]
  rfl

theorem Derives.carried {all : List Token} (h : Derives g m task all ns rest) (hg : g.Steady) :
    Carried g budget cut m task all ns rest := by
  induction h with
  | @rule k id _ _ _ h ih =>
    refine carried_of_inside (.rule h) hg fun ts n fuel hts hc hb hf ht => ?_
    cases n with
    | zero =>
      simp only [Task.run, parseRule, EStateM.run_bind, run_peek, run_fail]
      exact .deep (Nat.zero_lt_succ k)
    | succ n =>
      refine Follows.bind (Follows.bind ?_ (fun left hl => .same left hl) fun _ _ => rfl)
        (fun left hl => .same left hl) fun _ _ => rfl
      exact (ih ts n fuel hts hb hf (hg id)).imp Nat.succ_lt_succ
  | nil => exact fun ts n fuel hts _ _ _ => .same ts hts.symm
  | cons h1 h2 ih1 ih2 =>
    refine carried_of_inside (.cons h1 h2) hg fun ts n fuel hts hc hb hf ht => ?_
    have ht2 := fun e he => ht e (List.mem_cons_of_mem _ he)
    refine Follows.bind (ih1 ts n fuel hts hb hf (ht _ List.mem_cons_self)) (fun left hl => ?_) fun _ _ => ?_
    · have hlen := length_left (hts ▸ h1.suffix) hl
      exact Follows.bind (ih2 left n fuel hl.symm (by omega) (by omega) ht2) (fun left hl => .same left hl)
        fun _ _ => rfl
    · exact Starves.bind (h2.starves hg ht2 (by omega) (show 0 < fuel by omega)) fun _ => rfl
  | call _ ih => exact fun ts n fuel hts hb hf _ => ih ts n fuel hts hb hf trivial
  | choice hch h ih =>
    refine carried_of_inside (.choice hch h) hg fun ts n fuel hts hc hb hf ht => ?_
    rw [← hts, front_append hc] at hch
    simp only [Task.run, parseElement, Parsing.lift_self]
    rw [run_bind_answer ((run_choose g ts _).trans (congrArg _ hch))]
    exact ih ts n fuel hts hb hf trivial
  | skipped hbe =>
    refine carried_of_inside (.skipped hbe) hg fun ts n fuel hts hc hb hf ht => ?_
    rw [← hts, front_append hc] at hbe
    simp only [Task.run, parseElement, Parsing.lift_self]
    rw [run_bind_answer ((run_canBegin g ts _).trans (congrArg _ hbe))]
    exact .same ts hts.symm
  | taken hbe h ih =>
    refine carried_of_inside (.taken hbe h) hg fun ts n fuel hts hc hb hf ht => ?_
    rw [← hts, front_append hc] at hbe
    simp only [Task.run, parseElement, Parsing.lift_self]
    rw [run_bind_answer ((run_canBegin g ts _).trans (congrArg _ hbe))]
    exact Follows.bind (follows_one (ih ts n fuel hts hb hf trivial)) (fun left hl => .same left hl) fun _ _ => rfl
  | repetition _ ih => exact fun ts n fuel hts hb hf ht => ih ts n budget hts hb hb ht
  | manyNil hbe =>
    refine carried_of_inside (.manyNil hbe) hg fun ts n fuel hts hc hb hf ht => ?_
    obtain ⟨k, rfl⟩ : ∃ k, fuel = k + 1 := ⟨fuel - 1, by omega⟩
    rw [← hts, front_append hc] at hbe
    simp only [Task.run, parseMany, Parsing.lift_self]
    rw [run_bind_answer ((run_canBegin g ts _).trans (congrArg _ hbe))]
    exact .same ts hts.symm
  | manyCons hbe h1 h2 ih1 ih2 =>
    refine carried_of_inside (.manyCons hbe h1 h2) hg fun ts n fuel hts hc hb hf ht => ?_
    obtain ⟨k, rfl⟩ : ∃ k, fuel = k + 1 := ⟨fuel - 1, by omega⟩
    have hlt := h1.takes ht.2
    rw [← hts, front_append hc] at hbe
    simp only [Task.run, parseMany, Parsing.lift_self]
    rw [run_bind_answer ((run_canBegin g ts _).trans (congrArg _ hbe))]
    refine Follows.bind (follows_one (ih1 ts n (k + 1) hts hb hf trivial)) (fun left hl => ?_) fun hcut _ => ?_
    · have hlen : left.length < ts.length := by
        rw [← hts, hl] at hlt
        simpa using hlt
      exact Follows.bind (ih2 left n k hl.symm (by omega) (by omega) ht) (fun left hl => .same left hl) fun _ _ => rfl
    · have h0 : ts ≠ [] := hc.resolve_right hcut
      have := List.length_pos_iff.2 h0
      exact Starves.bind (many_starves _ _ ht.1 (by omega)) fun _ => rfl
  | token ha =>
    refine carried_of_inside (.token ha) hg fun ts n fuel hts hc hb hf ht => ?_
    obtain ⟨ts', rfl, hus⟩ := cons_of_append hc hts
    simp only [Task.run, parseElement, Parsing.lift_self, EStateM.run_bind, run_read, front_cons, ha, if_true]
    exact .same ts' hus
  | literal ha =>
    refine carried_of_inside (.literal ha) hg fun ts n fuel hts hc hb hf ht => ?_
    obtain ⟨ts', rfl, hus⟩ := cons_of_append hc hts
    simp only [Task.run, parseElement, Parsing.lift_self, EStateM.run_bind, run_read, front_cons, ha, if_true]
    exact .same ts' hus
  | chain h1 h2 ih1 ih2 =>
    refine carried_of_inside (.chain h1 h2) hg fun ts n fuel hts hc hb hf ht => ?_
    refine Follows.bind (follows_one (ih1 ts n fuel hts hb hf trivial)) (fun left hl => ?_) fun _ _ => ?_
    · have hlen := length_left (hts ▸ h1.suffix) hl
      exact ih2 left n budget hl.symm (by omega) (by omega) trivial
    · exact Starves.bind (climb_starves _ _ _ _ _ _ (by omega)) fun _ => rfl
  | climbStop hs =>
    refine carried_of_inside (.climbStop hs) hg fun ts n fuel hts hc hb hf ht => ?_
    obtain ⟨k, rfl⟩ : ∃ k, fuel = k + 1 := ⟨fuel - 1, by omega⟩
    rw [← hts, front_append hc] at hs
    simp only [Task.run, climb, Parsing.lift_self, EStateM.run_bind, run_nextOperator]
    cases ho : operatorOf _ (front ts) with
    | none => exact .same ts hts.symm
    | some p =>
      simp only [hs p ho]
      exact .same ts hts.symm
  | climbStep ho hy h1 h2 h3 ih1 ih2 ih3 =>
    refine carried_of_inside (.climbStep ho hy h1 h2 h3) hg fun ts n fuel hts hc hb hf ht => ?_
    obtain ⟨k, rfl⟩ : ∃ k, fuel = k + 1 := ⟨fuel - 1, by omega⟩
    obtain ⟨ts', rfl, hus⟩ := cons_of_append hc hts
    simp only [List.length_cons] at hb hf
    obtain ⟨all, rfl⟩ := h3.climb_one
    refine Follows.bind ?_ (fun left hl => .same left hl) fun _ _ => rfl
    rw [run_climb_step ho hy]
    refine Follows.bind (follows_one (ih1 ts' n (k + 1) hus.symm (by omega) (by omega) trivial)) (fun l1 hl1 => ?_)
      fun hcut first => ?_
    · have hlen := length_left (hus ▸ h1.suffix) hl1
      refine Follows.bind (follows_one (ih2 l1 n k hl1.symm (by omega) (by omega) trivial)) (fun l2 hl2 => ?_)
        fun hcut right => ?_
      · have hlen := length_left (hus ▸ h2.suffix.trans h1.suffix) hl2
        exact follows_one (ih3 l2 n k hl2.symm (by omega) (by omega) trivial)
      · exact climb_starves _ _ _ _ _ _ (by omega)
    · refine Starves.bind (climb_starves _ _ _ _ _ _ (by omega)) fun right => ?_
      exact climb_starves _ _ _ _ _ _ (by omega)

/-- **Parsing along a derivation.** On a first part of the tokens parsing does what the derivation says, finds too
little room, or comes to the end of a part that was cut off. -/
theorem Derives.follows (h : Derives g m task (ts ++ cut) ns rest) (hg : g.Steady) (ht : task.Steady g)
    (hb : ts.length < budget) (hf : ts.length < fuel) :
    Follows (n < m) cut ns rest ((task.run g budget n fuel).run (ofTokens ts)) :=
  h.carried hg ts n fuel rfl hb hf ht

/-- **Derivations are carried out.** On all of its tokens, and with the room it takes, parsing gives what a derivation
says. -/
theorem Derives.run (h : Derives g n task ts ns rest) (hg : g.Steady) (ht : task.Steady g) (hb : ts.length < budget)
    (hf : ts.length < fuel) : (task.run g budget n fuel).run (ofTokens ts) = .ok ns (ofTokens rest) := by
  have h' : Derives g n task (ts ++ []) ns rest := by rwa [List.append_nil]
  have hr := h'.follows (n := n) hg ht hb hf
  generalize (task.run g budget n fuel).run (ofTokens ts) = r at hr
  cases hr with
  | same left hl => rw [hl, List.append_nil]
  | deep h => exact absurd h (Nat.lt_irrefl n)
  | starved hc _ => exact absurd rfl hc

end Following

end Stone
