/-
The trees that the language gives. `Fits` says, role by role, what children a tree has: it is the grammar read as a
statement about trees, with the freedom that names have (there are no keywords, so a name may be any identifier that the
place does not take for something else). Leaves have tokens with a property `Q` of choice.

- `Derives.gives`: for any table, if every rule makes trees with its property from parts with theirs, then every
  derivation gives such trees.
- `parseStatement_fits`: every statement that is parsed fits, on any stream and at any level.
-/
import Stone.Proofs.Programs

namespace Stone

open TokenStream Grammar

/-! ## Properties of trees, rule by rule -/

/-- trees of operands with the property `P`, joined by operators of the table -/
inductive Joined (P : Node → Prop) (Q : Token → Prop) (table : OperatorTable) (kind : ListKind) : Node → Prop
  | operand {n : Node} : P n → Joined P Q table kind n
  | join {a b : Node} {op : Token} {p : Precedence} : Joined P Q table kind a → Joined P Q table kind b → Q op →
      operatorOf table op = some p → Joined P Q table kind (kind.build [a, .leaf .mark op, b])

section Giving

variable (g : Grammar) (P : RuleId → Token → Node → Prop) (Q : Token → Prop)

/-- what an element gives that meets the token `t` first, where rules give trees with the property `P` -/
def ElementGives (t : Token) (ns : List Node) : Element → Prop
  | .rule id => ∃ n, ns = [n] ∧ P id t n
  | .choice ids => ∃ id n, g.chosen t ids = some (some id) ∧ ns = [n] ∧ P id t n
  | .optional id => ns = [] ∨ ∃ n, g.begins t id = some true ∧ P id t n ∧ ns = if n.isVacuous then [] else [n]
  | .many id => ∀ n ∈ ns, n.isVacuous = false ∧ ∃ u, P id u n
  | .token cls kind => cls.accepts t = true ∧ Q t ∧ ns = [.leaf kind t]
  | .literal texts keep => texts.any t.isLiteral = true ∧ Q t ∧ ns = if keep then [.leaf .mark t] else []
  | .operators id table kind => ∃ n, ns = [n] ∧ Joined (fun n => ∃ u, P id u n) Q table kind n

/-- what a sequence of elements gives -/
def ElementsGive : Token → List Node → List Element → Prop
  | _, ns, [] => ns = []
  | t, ns, e :: es => ∃ as bs u, ns = as ++ bs ∧ ElementGives g P Q t as e ∧ ElementsGive u bs es

/-- every rule makes trees with its property from parts with theirs -/
def Keeps : Prop :=
  ∀ id t ns, ElementsGive g P Q t ns (g.rule id).elements → P id t ((g.rule id).build.make ns)

/-- what a task gives -/
def TaskGives (t : Token) (ns : List Node) : Task → Prop
  | .rule id => ∃ n, ns = [n] ∧ P id t n
  | .element e => ElementGives g P Q t ns e
  | .elements es => ElementsGive g P Q t ns es
  | .many id => ∀ n ∈ ns, n.isVacuous = false ∧ ∃ u, P id u n
  | .climb id table kind _ left =>
    Joined (fun n => ∃ u, P id u n) Q table kind left → ∃ n, ns = [n] ∧ Joined (fun n => ∃ u, P id u n) Q table kind n

variable {g P Q}

/-- **Properties go up derivations.** -/
theorem Derives.gives {n : Nat} {task : Task} {ts rest : List Token} {ns : List Node}
    (h : Derives g n task ts ns rest) (hP : Keeps g P Q) (hQ : ∀ t ∈ ts, Q t) :
    TaskGives g P Q (front ts) ns task := by
  induction h with
  | rule _ ih => exact ⟨_, rfl, hP _ _ _ (ih hQ)⟩
  | nil => exact rfl
  | cons h1 _ ih1 ih2 =>
    exact ⟨_, _, _, rfl, ih1 hQ, ih2 fun t ht => hQ t (h1.suffix.subset ht)⟩
  | call _ ih => exact ih hQ
  | choice hc _ ih =>
    obtain ⟨n, hn, hp⟩ := ih hQ
    exact ⟨_, n, hc, hn, hp⟩
  | skipped _ => exact .inl rfl
  | taken hb _ ih =>
    obtain ⟨n, hn, hp⟩ := ih hQ
    cases hn
    exact .inr ⟨_, hb, hp, rfl⟩
  | repetition _ ih => exact ih hQ
  | manyNil _ => intro n hn; cases hn
  | @manyCons _ _ _ _ _ n _ _ h1 _ ih1 ih2 =>
    obtain ⟨_, hn, hp⟩ := ih1 hQ
    cases hn
    have hmore := ih2 fun t ht => hQ t (h1.suffix.subset ht)
    intro m hm
    cases hv : n.isVacuous with
    | true =>
      rw [hv] at hm
      exact hmore m hm
    | false =>
      rw [hv] at hm
      rcases List.mem_cons.1 hm with rfl | hm
      · exact ⟨hv, _, hp⟩
      · exact hmore m hm
  | token ha => exact ⟨ha, hQ _ List.mem_cons_self, rfl⟩
  | literal ha => exact ⟨ha, hQ _ List.mem_cons_self, rfl⟩
  | chain h1 _ ih1 ih2 =>
    obtain ⟨n, hn, hp⟩ := ih1 hQ
    cases hn
    exact ih2 (fun t ht => hQ t (h1.suffix.subset ht)) (.operand ⟨_, hp⟩)
  | climbStop _ => exact fun hl => ⟨_, rfl, hl⟩
  | climbStep ho _ h1 h2 _ ih1 ih2 ih3 =>
    intro hl
    have hq := fun t ht => hQ t (List.mem_cons_of_mem _ ht)
    obtain ⟨first, hf, hp⟩ := ih1 hq
    cases hf
    obtain ⟨right, hr, hright⟩ := ih2 (fun t ht => hq t (h1.suffix.subset ht)) (.operand ⟨_, hp⟩)
    cases hr
    exact ih3 (fun t ht => hq t ((h2.suffix.trans h1.suffix).subset ht))
      (.join hl hright (hQ _ List.mem_cons_self) ho)

end Giving

/-! ## Roles -/

/-- the places where a tree can stand -/
inductive Role where
  /-- an expression; a loose one comes after a sign and may begin with a minus sign that is a name -/
  | value (loose : Bool)
  | arguments
  | parameter
  | parameters
  | block
  | statement
  /-- a whole statement of a program -/
  | program

/-- can an operand be a name spelled so -/
structure Nameable (l : Level) (s : String) : Prop where
  unreserved : s ∉ reservedTexts l
  no_group : s ≠ "("
  no_closure : l.hasClosures = true → s ≠ "fun"

/-- the tree is one that the language at level `l` has in this role -/
inductive Fits (l : Level) (Q : Token → Prop) : Role → Node → Prop
  | number {b : Bool} {line : Nat} {d : Decimal} : Q ⟨line, .number d⟩ →
      Fits l Q (.value b) (.leaf .number ⟨line, .number d⟩)
  | string {b : Bool} {line : Nat} {s : String} : Q ⟨line, .string s⟩ →
      Fits l Q (.value b) (.leaf .string ⟨line, .string s⟩)
  | name {b : Bool} {line : Nat} {s : String} : Q ⟨line, .identifier s⟩ → Nameable l s → (b = false → s ≠ "-") →
      Fits l Q (.value b) (.leaf .name ⟨line, .identifier s⟩)
  | negative {b : Bool} {n : Node} : Fits l Q (.value true) n → Fits l Q (.value b) (.list .negative [n])
  | binary {b : Bool} {left right : Node} {line : Nat} {op : String} {p : Precedence} : Fits l Q (.value false) left →
      Fits l Q (.value false) right → Q ⟨line, .identifier op⟩ → OperatorTable.standard.get? op = some p →
      Fits l Q (.value b) (.list .binary [left, .leaf .mark ⟨line, .identifier op⟩, right])
  | primary {b : Bool} {operand : Node} {calls : List Node} : l.hasFunctions = true → Fits l Q (.value b) operand →
      calls ≠ [] → (∀ c ∈ calls, Fits l Q .arguments c) → Fits l Q (.value b) (.list .primary (operand :: calls))
  | closure {b : Bool} {params body : Node} : l.hasClosures = true → Fits l Q .parameters params →
      Fits l Q .block body → Fits l Q (.value b) (.list .closure [params, body])
  | arguments {ns : List Node} : (∀ n ∈ ns, Fits l Q (.value false) n) → Fits l Q .arguments (.list .arguments ns)
  | parameter {line : Nat} {s : String} : Q ⟨line, .identifier s⟩ → s ∉ reservedTexts l →
      Fits l Q .parameter (.leaf .name ⟨line, .identifier s⟩)
  | parameters {ns : List Node} : (∀ n ∈ ns, Fits l Q .parameter n) → Fits l Q .parameters (.list .parameters ns)
  | block {ns : List Node} : (∀ n ∈ ns, Fits l Q .statement n) → Fits l Q .block (.list .block ns)
  | simple {n : Node} : Fits l Q (.value false) n → Fits l Q .statement n
  | conditional {condition body : Node} : Fits l Q (.value false) condition → Fits l Q .block body →
      Fits l Q .statement (.list .conditional [condition, body])
  | otherwise {condition body other : Node} : Fits l Q (.value false) condition → Fits l Q .block body →
      Fits l Q .block other → Fits l Q .statement (.list .conditional [condition, body, other])
  | loop {condition body : Node} : Fits l Q (.value false) condition → Fits l Q .block body →
      Fits l Q .statement (.list .loop [condition, body])
  | definition {line : Nat} {s : String} {params body : Node} : l.hasFunctions = true → Q ⟨line, .identifier s⟩ →
      s ∉ reservedTexts l → Fits l Q .parameters params → Fits l Q .block body →
      Fits l Q .program (.list .definition [.leaf .mark ⟨line, .identifier s⟩, params, body])
  | statement {n : Node} : Fits l Q .statement n → Fits l Q .program n
  | nothing : Fits l Q .program (.list .empty [])

/-- the lexemes that leaves of a kind have -/
def LeafKind.takes : LeafKind → Lexeme → Bool
  | number, .number _ => true
  | string, .string _ => true
  | mark, .identifier _ => true
  | name, .identifier _ => true
  | _, _ => false

/-- every leaf has the property -/
inductive Node.Leafwise (P : LeafKind → Token → Prop) : Node → Prop
  | leaf {kind : LeafKind} {t : Token} : P kind t → Leafwise P (.leaf kind t)
  | list {kind : ListKind} {children : List Node} : (∀ n ∈ children, Leafwise P n) → Leafwise P (.list kind children)

theorem Node.Leafwise.mono {P P' : LeafKind → Token → Prop} {n : Node} (h : n.Leafwise P)
    (hP : ∀ kind t, P kind t → P' kind t) : n.Leafwise P' := by
  induction h with
  | leaf h => exact .leaf (hP _ _ h)
  | list _ ih => exact .list ih

namespace Fits

variable {l : Level} {Q : Token → Prop} {n : Node}

/-- what may stand anywhere may stand after a sign -/
theorem loosen {b : Bool} (h : Fits l Q (.value false) n) : Fits l Q (.value b) n := by
  generalize hr : Role.value false = r at h
  induction h with
  | number hq => exact .number hq
  | string hq => exact .string hq
  | name hq hn hm => cases hr; exact .name hq hn fun _ => hm rfl
  | negative h => exact .negative h
  | binary ha hb hq hp => exact .binary ha hb hq hp
  | primary hf _ hc hcs ih => cases hr; exact .primary hf (ih rfl) hc hcs
  | closure hc hp hb => exact .closure hc hp hb
  | _ => cases hr

theorem not_vacuous {r : Role} (h : Fits l Q r n) : n.isVacuous = false := by
  induction h with
  | simple _ ih => exact ih
  | statement _ ih => exact ih
  | _ => rfl

/-- **Leaves have tokens of their kind**, with the property. -/
theorem leafwise {r : Role} (h : Fits l Q r n) : n.Leafwise fun kind t => Q t ∧ kind.takes t.lexeme = true := by
  induction h with
  | number hq | string hq | name hq _ _ | parameter hq _ => exact .leaf ⟨hq, rfl⟩
  | simple _ ih | statement _ ih => exact ih
  | nothing => exact .list nofun
  | arguments _ ih | parameters _ ih | block _ ih => exact .list ih
  | negative _ ih => exact .list (List.forall_mem_singleton.2 ih)
  | primary _ _ _ _ iho ihc => exact .list (List.forall_mem_cons.2 ⟨iho, ihc⟩)
  | closure _ _ _ ihp ihb | conditional _ _ ihp ihb | loop _ _ ihp ihb =>
    exact .list (by simp only [List.forall_mem_cons]; exact ⟨ihp, ihb, nofun⟩)
  | otherwise _ _ _ ihc ihb iho => exact .list (by simp only [List.forall_mem_cons]; exact ⟨ihc, ihb, iho, nofun⟩)
  | binary _ _ hq _ iha ihb =>
    exact .list (by simp only [List.forall_mem_cons]; exact ⟨iha, .leaf ⟨hq, rfl⟩, ihb, nofun⟩)
  | definition _ hq _ _ _ ihp ihb =>
    exact .list (by simp only [List.forall_mem_cons]; exact ⟨.leaf ⟨hq, rfl⟩, ihp, ihb, nofun⟩)

end Fits

/-! ## What each rule gives -/

/-- the property of the trees that the rule at a place gives, when it begins with the token `t` -/
def Gives (l : Level) (Q : Token → Prop) (id : RuleId) (t : Token) (n : Node) : Prop :=
  match id with
  | Place.primary => Fits l Q (.value true) n ∧ (t.isLiteral "-" = false → Fits l Q (.value false) n)
  | Place.expression | Place.moreArguments | Place.grouped | Place.number | Place.string | Place.negative
  | Place.factor => Fits l Q (.value false) n
  | Place.name => Q t ∧ (∃ s, t.lexeme = .identifier s ∧ s ∉ reservedTexts l) ∧ n = .leaf .name t
  | Place.closure => l.hasClosures = true → Fits l Q (.value false) n
  | Place.arguments | Place.noArguments | Place.call => Fits l Q .arguments n
  | Place.param | Place.moreParams => Fits l Q .parameter n
  | Place.params | Place.noParams | Place.parameters => Fits l Q .parameters n
  | Place.following => n.isVacuous = true ∨ Fits l Q .statement n
  | Place.block | Place.otherwise => Fits l Q .block n
  | Place.statement | Place.conditional | Place.loop | Place.simple => Fits l Q .statement n
  | Place.definition => l.hasFunctions = true → Fits l Q .program n
  | Place.nothing => Fits l Q .program n
  | Place.program => Fits l Q .program n
  | _ => True

section Keeping

variable {l : Level} {Q : Token → Prop} {g : Grammar} {P : RuleId → Token → Node → Prop} {t : Token} {ns : List Node}
  {es : List Element}

/-- a literal that leaves no trace -/
theorem gives_skip {texts : List String} (h : ElementsGive g P Q t ns (.literal texts false :: es)) :
    ∃ u, ElementsGive g P Q u ns es := by
  obtain ⟨as, bs, u, rfl, ⟨-, -, rfl⟩, hs⟩ := h
  exact ⟨u, hs⟩

theorem gives_rule {id : RuleId} (h : ElementsGive g P Q t ns (.rule id :: es)) :
    ∃ n ms u, ns = n :: ms ∧ P id t n ∧ ElementsGive g P Q u ms es := by
  obtain ⟨as, bs, u, rfl, ⟨n, rfl, hn⟩, hs⟩ := h
  exact ⟨n, bs, u, rfl, hn, hs⟩

theorem gives_choice {ids : List RuleId} (h : ElementsGive g P Q t ns (.choice ids :: es)) :
    ∃ id n ms u, g.chosen t ids = some (some id) ∧ ns = n :: ms ∧ P id t n ∧ ElementsGive g P Q u ms es := by
  obtain ⟨as, bs, u, rfl, ⟨id, n, hc, rfl, hn⟩, hs⟩ := h
  exact ⟨id, n, bs, u, hc, rfl, hn, hs⟩

theorem gives_token {cls : TokenClass} {kind : LeafKind} (h : ElementsGive g P Q t ns (.token cls kind :: es)) :
    ∃ ms u, cls.accepts t = true ∧ Q t ∧ ns = .leaf kind t :: ms ∧ ElementsGive g P Q u ms es := by
  obtain ⟨as, bs, u, rfl, ⟨ha, hq, rfl⟩, hs⟩ := h
  exact ⟨bs, u, ha, hq, rfl, hs⟩

theorem gives_optional {id : RuleId} (hv : ∀ u n, P id u n → n.isVacuous = false)
    (h : ElementsGive g P Q t ns (.optional id :: es)) :
    ∃ as ms u, ns = as ++ ms ∧ (as = [] ∨ ∃ n, as = [n] ∧ P id t n) ∧ ElementsGive g P Q u ms es := by
  obtain ⟨as, bs, u, rfl, ha, hs⟩ := h
  refine ⟨as, bs, u, rfl, ?_, hs⟩
  rcases ha with rfl | ⟨n, -, hn, rfl⟩
  · exact .inl rfl
  · exact .inr ⟨n, by simp [hv t n hn], hn⟩

theorem gives_many {id : RuleId} (h : ElementsGive g P Q t ns (.many id :: es)) :
    ∃ as ms u, ns = as ++ ms ∧ (∀ n ∈ as, n.isVacuous = false ∧ ∃ v, P id v n) ∧ ElementsGive g P Q u ms es := by
  obtain ⟨as, bs, u, rfl, ha, hs⟩ := h
  exact ⟨as, bs, u, rfl, ha, hs⟩

theorem gives_nil (h : ElementsGive g P Q t ns []) : ns = [] := h

/-- a rule behind a literal that leaves no trace -/
theorem gives_marked {texts : List String} {id : RuleId}
    (h : ElementsGive g P Q t ns [.literal texts false, .rule id]) : ∃ n u, ns = [n] ∧ P id u n := by
  obtain ⟨u, h⟩ := gives_skip h
  obtain ⟨n, ms, v, rfl, hn, rfl⟩ := gives_rule h
  exact ⟨n, u, rfl, hn⟩

/-- one of some rules between two literals that leave no trace -/
theorem gives_enclosed {before after : List String} {ids : List RuleId}
    (h : ElementsGive g P Q t ns [.literal before false, .choice ids, .literal after false]) :
    ∃ id ∈ ids, ∃ n u, ns = [n] ∧ P id u n := by
  obtain ⟨u, h⟩ := gives_skip h
  obtain ⟨id, n, ms, v, hc, rfl, hn, h⟩ := gives_choice h
  obtain ⟨w, rfl⟩ := gives_skip h
  exact ⟨id, (mem_of_firstThat hc).1, n, u, rfl, hn⟩

/-- a rule and then any number of another one, where both give trees of one kind -/
theorem gives_series {first more : RuleId} {F : Node → Prop}
    (h : ElementsGive g P Q t ns [.rule first, .many more]) (hfirst : ∀ u n, P first u n → F n)
    (hmore : ∀ u n, P more u n → F n) : ∀ n ∈ ns, F n := by
  obtain ⟨m, ms, u, rfl, hm, h⟩ := gives_rule h
  obtain ⟨others, ms, v, rfl, ho, rfl⟩ := gives_many h
  rw [List.append_nil, List.forall_mem_cons]
  exact ⟨hfirst _ _ hm, fun n hn => (ho n hn).2.elim fun _ hn => hmore _ _ hn⟩

theorem accepts_identifier {reserved : List String} (h : (TokenClass.identifier reserved).accepts t = true) :
    ∃ s, t.lexeme = .identifier s ∧ s ∉ reserved := by
  obtain ⟨line, x⟩ := t
  cases x with
  | identifier s => exact ⟨s, rfl, by simpa [TokenClass.accepts] using h⟩
  | _ => cases h

theorem fits_of_joined {n : Node} (h : Joined (fun n => ∃ u, Gives l Q Place.factor u n) Q .standard .binary n) :
    Fits l Q (.value false) n := by
  induction h with
  | operand hn =>
    obtain ⟨u, hn⟩ := hn
    exact hn
  | @join a b op p _ _ hq ho iha ihb =>
    obtain ⟨line, x⟩ := op
    cases x with
    | identifier s => exact .binary iha ihb hq ho
    | _ => cases ho

/-- an operand by the alternative that its first token chooses -/
theorem fits_of_operand {id : RuleId} {n : Node} (hc : Language.operandRule l t = some id) (h : Gives l Q id t n) :
    Fits l Q (.value true) n ∧ (t.isLiteral "-" = false → Fits l Q (.value false) n) := by
  unfold Language.operandRule at hc
  split at hc
  · rename_i hf
    cases hc
    have hn := h (by simp_all)
    exact ⟨hn.loosen, fun _ => hn⟩
  · rename_i hf
    split at hc
    · cases hc
      exact ⟨Fits.loosen h, fun _ => h⟩
    · rename_i hg
      split at hc
      · cases hc; exact ⟨Fits.loosen h, fun _ => h⟩
      · cases hc; exact ⟨Fits.loosen h, fun _ => h⟩
      · rename_i s hs
        split at hc
        · cases hc
        · cases hc
          obtain ⟨hq, ⟨s', hs', hr⟩, rfl⟩ := h
          obtain rfl : s = s' := by rw [hs] at hs'; cases hs'; rfl
          obtain ⟨line, x⟩ := t
          cases hs
          have hn : Nameable l s := ⟨hr, by simpa [Token.isLiteral] using hg, by simpa [Token.isLiteral] using hf⟩
          exact ⟨.name hq hn (by simp), fun hm => .name hq hn fun _ => by simpa [Token.isLiteral] using hm⟩
      · cases hc

/-- **The rules keep the shape of trees.** -/
theorem keeps (l : Level) (Q : Token → Prop) : Keeps l.grammar (Gives l Q) Q := by
  intro id t ns h
  rw [Language.elements_eq] at h
  rw [Language.build_eq]
  match id with
  | Place.expression =>
    obtain ⟨as, bs, u, rfl, ⟨n, rfl, hn⟩, rfl⟩ := h
    exact fits_of_joined hn
  | Place.primary =>
    obtain ⟨id, n, ms, u, hc, rfl, hn, h⟩ := gives_choice h
    rw [Language.chosen_primary] at hc
    have hn := fits_of_operand (Option.some.inj hc) hn
    split at h
    · rename_i hf
      obtain ⟨calls, ms, u, rfl, hcalls, rfl⟩ := gives_many h
      rw [List.append_nil]
      cases calls with
      | nil => exact hn
      | cons c cs =>
        have hc : ∀ d ∈ c :: cs, Fits l Q .arguments d := fun d hd => (hcalls d hd).2.elim fun _ hd => hd
        exact ⟨.primary hf hn.1 (by simp) hc, fun hm => .primary hf (hn.2 hm) (by simp) hc⟩
    · obtain rfl := gives_nil h
      exact hn
  | Place.statement =>
    obtain ⟨id, n, ms, u, hc, rfl, hn, rfl⟩ := gives_choice h
    have hid := (mem_of_firstThat hc).1
    simp only [List.mem_cons, List.not_mem_nil, or_false] at hid
    rcases hid with rfl | rfl | rfl <;> exact hn
  | Place.following =>
    obtain ⟨u, h⟩ := gives_skip h
    obtain ⟨as, ms, v, rfl, ha, rfl⟩ := gives_optional (fun _ _ hn => Fits.not_vacuous hn) h
    rcases ha with rfl | ⟨n, rfl, hn⟩
    · exact .inl rfl
    · exact .inr hn
  | Place.block =>
    obtain ⟨u, h⟩ := gives_skip h
    obtain ⟨as, ms, v, rfl, ha, h⟩ := gives_optional (fun _ _ hn => Fits.not_vacuous hn) h
    obtain ⟨bs, ms, w, rfl, hb, h⟩ := gives_many h
    obtain ⟨x, rfl⟩ := gives_skip h
    refine Fits.block fun n hn => ?_
    rw [List.append_nil, List.mem_append] at hn
    rcases hn with hn | hn
    · rcases ha with rfl | ⟨m, rfl, hm⟩
      · cases hn
      · obtain rfl := List.mem_singleton.1 hn
        exact hm
    · obtain ⟨hv, v, hn | hn⟩ := hb n hn
      · rw [hv] at hn; cases hn
      · exact hn
  | Place.param =>
    obtain ⟨ms, u, ha, hq, rfl, rfl⟩ := gives_token h
    obtain ⟨s, hs, hr⟩ := accepts_identifier ha
    obtain ⟨line, x⟩ := t
    cases hs
    exact Fits.parameter hq hr
  | Place.moreParams =>
    obtain ⟨n, u, rfl, hn⟩ := gives_marked h
    exact hn
  | Place.params => exact Fits.parameters (gives_series h (fun _ _ hn => hn) fun _ _ hn => hn)
  | Place.noParams => cases h; exact Fits.parameters (by simp)
  | Place.parameters =>
    obtain ⟨id, hid, n, u, rfl, hn⟩ := gives_enclosed h
    simp only [List.mem_cons, List.not_mem_nil, or_false] at hid
    rcases hid with rfl | rfl <;> exact hn
  | Place.definition =>
    obtain ⟨u, h⟩ := gives_skip h
    obtain ⟨_, v, ha, hq, rfl, hmore⟩ := gives_token h
    obtain ⟨params, ms, w, rfl, hp, hmore⟩ := gives_rule hmore
    obtain ⟨body, ms, x, rfl, hb, rfl⟩ := gives_rule hmore
    obtain ⟨s, hs, hr⟩ := accepts_identifier ha
    obtain ⟨line, x⟩ := u
    cases hs
    exact fun hf => Fits.definition hf hq hr hp hb
  | Place.moreArguments =>
    obtain ⟨n, u, rfl, hn⟩ := gives_marked h
    exact hn
  | Place.arguments => exact Fits.arguments (gives_series h (fun _ _ hn => hn) fun _ _ hn => hn)
  | Place.noArguments => cases h; exact Fits.arguments (by simp)
  | Place.call =>
    obtain ⟨id, hid, n, u, rfl, hn⟩ := gives_enclosed h
    simp only [List.mem_cons, List.not_mem_nil, or_false] at hid
    rcases hid with rfl | rfl <;> exact hn
  | Place.closure =>
    obtain ⟨u, h⟩ := gives_skip h
    obtain ⟨params, ms, u, rfl, hp, h⟩ := gives_rule h
    obtain ⟨body, ms, u, rfl, hb, rfl⟩ := gives_rule h
    exact fun hc => Fits.closure hc hp hb
  | Place.grouped =>
    obtain ⟨u, h⟩ := gives_skip h
    obtain ⟨n, ms, u, rfl, hn, h⟩ := gives_rule h
    obtain ⟨u, rfl⟩ := gives_skip h
    exact hn
  | Place.number =>
    obtain ⟨ms, u, ha, hq, rfl, rfl⟩ := gives_token h
    obtain ⟨line, x⟩ := t
    cases x with
    | number d => exact Fits.number hq
    | _ => cases ha
  | Place.name =>
    obtain ⟨ms, u, ha, hq, rfl, rfl⟩ := gives_token h
    exact ⟨hq, accepts_identifier ha, rfl⟩
  | Place.string =>
    obtain ⟨ms, u, ha, hq, rfl, rfl⟩ := gives_token h
    obtain ⟨line, x⟩ := t
    cases x with
    | string s => exact Fits.string hq
    | _ => cases ha
  | Place.negative =>
    obtain ⟨n, u, rfl, hn⟩ := gives_marked h
    exact Fits.negative hn.1
  | Place.factor =>
    obtain ⟨id, n, ms, u, hc, rfl, hn, rfl⟩ := gives_choice h
    rw [Language.chosen_factor] at hc
    cases hm : t.isLiteral "-" with
    | true =>
      rw [hm] at hc
      cases hc
      exact hn
    | false =>
      rw [hm] at hc
      cases ho : Language.opens l t with
      | true =>
        rw [ho] at hc
        cases hc
        exact hn.2 hm
      | false => rw [ho] at hc; cases hc
  | Place.otherwise =>
    obtain ⟨n, u, rfl, hn⟩ := gives_marked h
    exact hn
  | Place.conditional =>
    obtain ⟨u, h⟩ := gives_skip h
    obtain ⟨condition, ms, v, rfl, hc, h⟩ := gives_rule h
    obtain ⟨body, ms, w, rfl, hb, h⟩ := gives_rule h
    obtain ⟨as, ms, x, rfl, ha, rfl⟩ := gives_optional (fun _ _ hn => Fits.not_vacuous hn) h
    rcases ha with rfl | ⟨other, rfl, ho⟩
    · exact Fits.conditional hc hb
    · exact Fits.otherwise hc hb ho
  | Place.loop =>
    obtain ⟨u, h⟩ := gives_skip h
    obtain ⟨condition, ms, v, rfl, hc, h⟩ := gives_rule h
    obtain ⟨body, ms, w, rfl, hb, rfl⟩ := gives_rule h
    exact Fits.loop hc hb
  | Place.simple =>
    obtain ⟨n, ms, u, rfl, hn, h⟩ := gives_rule h
    split at h
    · rename_i hf
      obtain ⟨as, ms, v, rfl, ha, rfl⟩ := gives_optional (fun _ _ hn => Fits.not_vacuous hn) h
      rcases ha with rfl | ⟨call, rfl, hc⟩
      · exact Fits.simple hn
      · refine Fits.simple (.primary hf hn (by simp) fun c hm => ?_)
        obtain rfl := List.mem_singleton.1 hm
        exact hc
    · obtain rfl := gives_nil h
      exact Fits.simple hn
  | Place.nothing =>
    cases h
    exact Fits.nothing
  | Place.program =>
    obtain ⟨id, n, ms, u, hc, rfl, hn, h⟩ := gives_choice h
    obtain ⟨v, rfl⟩ := gives_skip h
    have hid := (mem_of_firstThat hc).1
    simp only [Language.programRules, List.mem_append, List.mem_ite_nil_right, List.mem_cons, List.not_mem_nil,
      or_false] at hid
    rcases hid with ⟨hf, rfl⟩ | rfl | rfl
    · exact hn hf
    · exact Fits.statement hn
    · exact hn
  | n + 28 => trivial

end Keeping

/-! ## What is parsed -/

section Parsed

variable {l : Level} {Q : Token → Prop}

theorem fits_of_derives {k : Nat} {n : Node} {ts rest : List Token} (hQ : ∀ t ∈ ts, Q t)
    (h : Derives l.grammar k (.rule Place.program) ts [n] rest) : Fits l Q .program n := by
  obtain ⟨m, hm, hp⟩ := h.gives (keeps l Q) hQ
  cases hm
  exact hp

/-- **Every statement fits**, on any stream and at any level. -/
theorem parseStatement_fits {s s' : TokenStream} {n : Node} (hQ : ∀ t ∈ s.tokens, Q t)
    (h : (Language.ofLevel l).parseStatement.run s = .ok n s') : Fits l Q .program n :=
  fits_of_derives hQ (parseStatement_derives h).1

theorem Statements.fits {ts : List Token} {ns : List Node} (h : Statements l ts ns) (hQ : ∀ t ∈ ts, Q t) :
    ∀ n ∈ ns, Fits l Q .program n := by
  induction h with
  | done => intro n hn; cases hn
  | more hd _ ih =>
    intro n hn
    rcases List.mem_cons.1 hn with rfl | hn
    · exact fits_of_derives hQ hd
    · exact ih (fun t ht => hQ t (hd.suffix.subset ht)) n hn

/-- the statements of a program fit, and their tokens are tokens of lines -/
theorem parseProgram_fits {source : String} {ns : List Node} (h : parseProgram l source = .ok ns) :
    ∀ n ∈ ns, Fits l Token.Scanned .program n ∧ n.is .empty = false := by
  obtain ⟨-, raw, hraw, rfl⟩ := parseProgram_ok.1 h
  intro n hn
  obtain ⟨hn, he⟩ := List.mem_filter.1 hn
  exact ⟨hraw.fits (ofSource_scanned source) n hn, by simpa using he⟩

end Parsed

end Stone
