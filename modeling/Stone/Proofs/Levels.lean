/-
Levels are conservative. A program of the basic level is the same program at the levels with functions, unless it uses
their words, or has a closing parenthesis as a name. Closures are told from everything else by one word, so on texts
without it the two levels with functions do the same, call by call: they give the same trees, raise the same errors and
leave the same stream.

- `parseProgram_lifted`: programs of the basic level at another one.
- `agrees_parseStatement`: the two levels with functions, on a stream without the word.
- `levels_conservative`: both, for source texts.
-/
import Stone.Proofs.Lifted
import Stone.Proofs.WellFormed

namespace Stone

open TokenStream Parsing Grammar Stone.Language

/-! ## Words that are not there -/

namespace TokenStream

/-- the tokens of a line, none if it has an error -/
def lineTokens : Except ScanError (List Token) → List Token
  | .ok ts => ts
  | .error _ => []

/-- no token of the stream, before or after a line with an error, is this word -/
def Lacks (word : String) (s : TokenStream) : Prop :=
  ∀ t ∈ s.waiting ++ s.lines.flatMap lineTokens, t.lexeme ≠ .identifier word

instance (word : String) (s : TokenStream) : Decidable (s.Lacks word) :=
  inferInstanceAs (Decidable (∀ t ∈ s.waiting ++ s.lines.flatMap lineTokens, t.lexeme ≠ .identifier word))

variable {word : String} {s s' : TokenStream}

theorem lacks_of_uses (h : Uses s s') (hs : s.Lacks word) : s'.Lacks word := by
  intro t ht
  refine hs t ?_
  cases h with
  | token => exact List.mem_cons_of_mem _ ht
  | line =>
    rw [List.flatMap_cons, ← List.append_assoc]
    exact ht
  | badLine => exact ht

theorem lacks_of_leads (h : Leads s s') (hs : s.Lacks word) : s'.Lacks word := by
  induction h with
  | refl => exact hs
  | tail _ hu ih => exact lacks_of_uses hu ih

theorem sound_subset (lines : Lines) : sound lines ⊆ lines.flatMap lineTokens := by
  induction lines with
  | nil => exact List.Subset.refl _
  | cons line lines ih =>
    cases line with
    | error e => exact List.nil_subset _
    | ok ts =>
      refine List.append_subset.2 ⟨List.subset_append_left _ _, ?_⟩
      exact List.Subset.trans ih (List.subset_append_right _ _)

/-- the tokens that parsing can reach are not the word -/
theorem Lacks.tokens (h : s.Lacks word) (hw : word ≠ Token.lineEndText) : ∀ t ∈ s.tokens, t.isLiteral word = false := by
  intro t ht
  have hmem : t ∈ s.waiting ++ s.lines.flatMap lineTokens :=
    (List.mem_append.1 ht).elim (List.mem_append_left _) fun h => List.mem_append_right _ (sound_subset _ h)
  have hne := h t hmem
  obtain ⟨line, x⟩ := t
  cases x with
  | identifier text => simpa [Token.isLiteral] using hne
  | lineEnd => simpa [Token.isLiteral] using Ne.symm hw
  | _ => rfl

end TokenStream

/-! ## Programs of the basic level -/

section Basic

variable {l : Level}

/-- the empty statement has no names -/
theorem not_hasName_of_empty {n : Node} {ts rest : List Token} {text : String}
    (h : Derives l.grammar maxNesting (.rule Place.program) ts [n] rest) (he : n.is .empty = true) :
    ¬ n.HasName text := by
  rcases (fits_of_derives (Q := fun _ => True) (fun _ _ => trivial) h).program_tidy with rfl | ht
  · rintro (_ | ⟨hm, _⟩)
    cases hm
  · have hn := (ht n .here).2
    rw [he] at hn
    cases hn

theorem Statements.lifted {ts : List Token} {raw : List Node} (h : Statements .basic ts raw)
    (hts : ∀ t ∈ ts, Familiar t) (hraw : ∀ n ∈ withoutEmpty raw, ¬ n.HasName ")") : Statements l ts raw := by
  induction h with
  | done => exact .done
  | @more ts rest n ns hd _ ih =>
    have hn : ∀ m ∈ [n], ¬ m.HasName ")" := by
      intro m hm
      obtain rfl := List.mem_singleton.1 hm
      cases he : m.is .empty with
      | true => exact not_hasName_of_empty hd he
      | false => exact hraw m (by rw [withoutEmpty_cons, he]; exact List.mem_cons_self)
    have hkept : (Task.rule Place.program).Kept l .fixed := ⟨by decide, Nat.le_refl _⟩
    have hrule := hd.lifted hkept hts hn rfl
    refine .more hrule (ih (fun t ht => hts t (hd.suffix.subset ht)) fun m hm => hraw m ?_)
    rw [withoutEmpty_cons]
    split
    · exact hm
    · exact List.mem_cons_of_mem _ hm

/-- **Programs of the basic level** are the same programs at every level, if no word is new and no name is a closing
parenthesis. -/
theorem parseProgram_lifted {source : String} {ns : List Node} (h : parseProgram .basic source = .ok ns)
    (hdef : (ofSource source).Lacks "def") (hfun : (ofSource source).Lacks "fun")
    (hns : ∀ n ∈ ns, ¬ n.HasName ")") : parseProgram l source = .ok ns := by
  obtain ⟨hc, raw, hraw, rfl⟩ := parseProgram_ok.1 h
  have hfamiliar : ∀ t ∈ (ofSource source).tokens, Familiar t := fun t ht =>
    ⟨hdef.tokens (by decide) t ht, hfun.tokens (by decide) t ht⟩
  exact parseProgram_ok.2 ⟨hc, raw, hraw.lifted hfamiliar hns, rfl⟩

end Basic

/-! ## Two levels with functions -/

/-- on a stream without the word `fun` the two actions end in the same way, and leave such a stream -/
def Agrees {α : Type} (p q : Parsing α) : Prop :=
  ∀ s : TokenStream, s.Lacks "fun" → p.run s = q.run s ∧ (Ending.left (p.run s)).Lacks "fun"

section Agreement

variable {α β : Type} {p q : Parsing α} {f f' : α → Parsing β}

theorem Agrees.refl (h : Built p) : Agrees p p := fun s hs => ⟨rfl, lacks_of_leads (h.leads s) hs⟩

theorem Agrees.bind (hp : Agrees p q) (hf : ∀ a, Agrees (f a) (f' a)) : Agrees (p >>= f) (q >>= f') := by
  intro s hs
  obtain ⟨heq, hleft⟩ := hp s hs
  rw [EStateM.run_bind, EStateM.run_bind, ← heq]
  cases hr : p.run s with
  | error e s' => rw [hr] at hleft; exact ⟨rfl, hleft⟩
  | ok a s' => rw [hr] at hleft; exact hf a s' hleft

theorem agrees_firstMatch {ask ask' : RuleId → Parsing Bool} (h : ∀ id, Agrees (ask id) (ask' id))
    (ids : List RuleId) : Agrees (firstMatch ask ids) (firstMatch ask' ids) := by
  induction ids with
  | nil => exact .refl (.pure _)
  | cons id ids ih =>
    refine .bind (h id) fun b => ?_
    cases b with
    | true => exact .refl (.pure _)
    | false => exact ih

theorem agrees_elementCanBegin {ask ask' : RuleId → Parsing Bool} (h : ∀ id, Agrees (ask id) (ask' id)) (e : Element) :
    Agrees (elementCanBegin ask e) (elementCanBegin ask' e) := by
  cases e with
  | rule id | optional id | many id | operators id _ _ => exact h id
  | choice ids => exact .bind (agrees_firstMatch h ids) fun _ => .refl (.pure _)
  | token cls kind => exact .refl (.bind .peek fun _ => .pure _)
  | literal texts keep => exact .refl (.bind .peek fun _ => .pure _)

theorem agrees_parseMany {ask ask' : Parsing Bool} {parse parse' : Parsing Node} (ha : Agrees ask ask')
    (hp : Agrees parse parse') (budget : Nat) : Agrees (parseMany ask parse budget) (parseMany ask' parse' budget) := by
  induction budget with
  | zero => exact .refl (.throw _)
  | succ budget ih =>
    refine .bind ha fun b => ?_
    cases b with
    | true => exact .bind hp fun _ => .bind ih fun _ => .refl (.pure _)
    | false => exact .refl (.pure _)

theorem agrees_climb {table : OperatorTable} {kind : ListKind} {operand operand' : Parsing Node}
    (h : Agrees operand operand') (budget : Nat) (waiting : Option Precedence) (left : Node) :
    Agrees (climb table kind operand budget waiting left) (climb table kind operand' budget waiting left) := by
  induction budget generalizing waiting left with
  | zero => exact .refl (.throw _)
  | succ budget ih =>
    refine .bind (.refl (built_nextOperator table)) fun next => ?_
    cases next with
    | none => exact .refl (.pure _)
    | some p =>
      simp only
      split
      · exact .bind (.refl .read) fun _ => .bind h fun _ => .bind (ih _ _) fun _ => ih _ _
      · exact .refl (.pure _)

/-- an element of both tables, where the rules agree -/
theorem agrees_parseElement {g g' : Grammar} {budget : Nat} {parse parse' : RuleId → Parsing Node}
    (hask : ∀ id, Agrees (g.canBegin id) (g'.canBegin id)) (h : ∀ id, Agrees (parse id) (parse' id)) (e : Element) :
    Agrees (parseElement g budget parse e) (parseElement g' budget parse' e) := by
  cases e with
  | rule id => exact .bind (h id) fun _ => .refl (.pure _)
  | choice ids =>
    refine .bind (agrees_firstMatch hask ids) fun o => ?_
    cases o with
    | some id => exact .bind (h id) fun _ => .refl (.pure _)
    | none => exact .refl (.bind .peek fun _ => built_fail _)
  | optional id =>
    refine .bind (hask id) fun b => ?_
    cases b with
    | true => exact .bind (h id) fun _ => .refl (.pure _)
    | false => exact .refl (.pure _)
  | many id => exact agrees_parseMany (hask id) (h id) budget
  | token cls kind =>
    refine .refl (.bind .read fun t => ?_)
    split
    · exact .pure _
    · exact built_fail _
  | literal texts keep =>
    refine .refl (.bind .read fun t => ?_)
    split
    · exact .pure _
    · exact built_fail _
  | operators id table kind =>
    exact .bind (h id) fun _ => .bind (agrees_climb (h id) _ _ _) fun _ => .refl (.pure _)

theorem agrees_parseElements {g g' : Grammar} {budget : Nat} {parse parse' : RuleId → Parsing Node}
    (hask : ∀ id, Agrees (g.canBegin id) (g'.canBegin id)) (h : ∀ id, Agrees (parse id) (parse' id))
    (es : List Element) : Agrees (parseElements g budget parse es) (parseElements g' budget parse' es) := by
  induction es with
  | nil => exact .refl (.pure _)
  | cons e es ih => exact .bind (agrees_parseElement hask h e) fun _ => .bind ih fun _ => .refl (.pure _)

end Agreement

/-! ## The word that begins a closure -/

section Closures

/-- the next token of a stream without the word is not the word -/
theorem peek_lacks {s s' : TokenStream} {t : Token} (hs : s.Lacks "fun") (h : s.peek 0 = (.ok t, s')) :
    t.isLiteral "fun" = false := by
  have hshows := peek_shows s
  rw [h] at hshows
  rw [hshows.1]
  cases htokens : s.tokens with
  | nil => rfl
  | cons u us => exact hs.tokens (by decide) u (by rw [htokens]; exact List.mem_cons_self)

/-- a question about the next token -/
def asks (texts : List String) : Parsing Bool := do return texts.any (← peek).isLiteral

theorem run_asks (texts : List String) (s : TokenStream) :
    (asks texts).run s = match s.peek 0 with
      | (.ok t, s') => .ok (texts.any t.isLiteral) s'
      | (.error e, s') => .error (.raised (.scan e)) s' := by
  rw [asks, EStateM.run_bind, run_peek_eq]
  rcases s.peek 0 with ⟨_ | _, _⟩ <;> rfl

/-- one more alternative, for the word that is not there, makes no difference to a choice by the next token -/
theorem agrees_operands {ask ask' : RuleId → Parsing Bool} (h : ∀ id, Agrees (ask id) (ask' id))
    (hclosure : ask' Place.closure = asks ["fun"]) (hgrouped : ask' Place.grouped = asks ["("]) :
    Agrees (firstMatch ask (operandRules .functions)) (firstMatch ask' (operandRules .closures)) := by
  intro s hs
  obtain ⟨heq, hleft⟩ := agrees_firstMatch h (operandRules .functions) s hs
  refine ⟨heq.trans ?_, hleft⟩
  have hmore : ∀ u, (firstMatch ask' (operandRules .functions)).run u =
      (asks ["("] >>= fun b => if b then pure (some Place.grouped) else
        firstMatch ask' [Place.number, Place.name, Place.string]).run u := by
    intro u
    rw [← hgrouped]
    rfl
  have hall : (firstMatch ask' (operandRules .closures)).run s =
      (asks ["fun"] >>= fun b => if b then pure (some Place.closure) else
        firstMatch ask' (operandRules .functions)).run s := by
    rw [← hclosure]
    rfl
  rw [hall, hmore, EStateM.run_bind, EStateM.run_bind, run_asks, run_asks]
  rcases hp : s.peek 0 with ⟨e | t, s'⟩
  · rfl
  · have hfun : ["fun"].any t.isLiteral = false := by rw [List.any_cons, peek_lacks hs hp]; rfl
    simp only [hfun, Bool.false_eq_true, if_false, hmore, EStateM.run_bind, run_asks, peek_again hp]

theorem canBegin_closure (k : Nat) :
    Level.closures.grammar.canBeginWithin (k + 1) Place.closure = asks ["fun"] := by
  rw [canBeginWithin, elements_eq]
  rfl

theorem canBegin_grouped (k : Nat) : Level.closures.grammar.canBeginWithin (k + 1) Place.grouped = asks ["("] := by
  rw [canBeginWithin, elements_eq]
  rfl

/-- the levels differ in what an operand can be, and in nothing else -/
theorem elementsAt_closures : ∀ id, id ≠ Place.primary → elementsAt .functions id = elementsAt .closures id :=
  forall_places (by decide +kernel) fun _ _ => rfl

theorem canBeginWithin_zero (g : Grammar) : g.canBeginWithin 0 = fun _ => throw .endless :=
  funext fun _ => by rw [canBeginWithin]

theorem agrees_canBeginWithin (k : Nat) (id : RuleId) :
    Agrees (Level.functions.grammar.canBeginWithin k id) (Level.closures.grammar.canBeginWithin k id) := by
  induction k generalizing id with
  | zero =>
    rw [canBeginWithin_zero, canBeginWithin_zero]
    exact .refl (.throw _)
  | succ k ih =>
    rw [canBeginWithin, canBeginWithin, elements_eq, elements_eq]
    by_cases hid : id = Place.primary
    · subst hid
      refine .bind ?_ fun _ => .refl (.pure _)
      cases k with
      | zero =>
        rw [canBeginWithin_zero, canBeginWithin_zero]
        exact fun s hs => ⟨rfl, hs⟩
      | succ k => exact agrees_operands ih (canBegin_closure k) (canBegin_grouped k)
    · rw [elementsAt_closures id hid]
      cases elementsAt .closures id with
      | nil => exact .refl (.pure _)
      | cons e es => exact agrees_elementCanBegin ih e

theorem agrees_canBegin (id : RuleId) :
    Agrees (Level.functions.grammar.canBegin id) (Level.closures.grammar.canBegin id) := by
  rw [canBegin, canBegin, size_eq, size_eq]
  exact agrees_canBeginWithin 29 id

theorem agrees_parseRule (budget n : Nat) (id : RuleId) :
    Agrees (Level.functions.grammar.parseRule budget n id) (Level.closures.grammar.parseRule budget n id) := by
  induction n generalizing id with
  | zero =>
    rw [parseRule, parseRule]
    exact .refl (.bind .peek fun _ => built_fail _)
  | succ n ih =>
    rw [parseRule, parseRule, parseInside, parseInside, elements_eq, elements_eq, build_eq, build_eq]
    refine .bind ?_ fun _ => .refl (.pure _)
    by_cases hid : id = Place.primary
    · subst hid
      have hchoice : Agrees (firstMatch Level.functions.grammar.canBegin (operandRules .functions))
          (firstMatch Level.closures.grammar.canBegin (operandRules .closures)) := by
        refine agrees_operands agrees_canBegin ?_ ?_
        · rw [canBegin, size_eq, canBegin_closure]
        · rw [canBegin, size_eq, canBegin_grouped]
      refine .bind (.bind hchoice fun o => ?_) fun _ => .bind ?_ fun _ => .refl (.pure _)
      · cases o with
        | some id => exact .bind (ih id) fun _ => .refl (.pure _)
        | none => exact .refl (.bind .peek fun _ => built_fail _)
      · exact agrees_parseElements agrees_canBegin ih [.many Place.call]
    · rw [elementsAt_closures id hid]
      exact agrees_parseElements agrees_canBegin ih _

/-- **The two levels with functions agree** on statements without the word `fun`. -/
theorem agrees_parseStatement : Agrees Language.functions.parseStatement Language.closures.parseStatement := by
  intro s hs
  have hf : Language.functions.parseStatement = Level.functions.grammar.parse Place.program := rfl
  have hc : Language.closures.parseStatement = Level.closures.grammar.parse Place.program := rfl
  rw [hf, hc, run_parse, run_parse]
  exact agrees_parseRule (s.size + 1) maxNesting Place.program s hs

end Closures

/-! ## Statement by statement -/

/-- what a reader can ask for -/
inductive Request where
  | atEnd
  | statement

/-- what the stream gives, and how it ends -/
def Language.perform (lang : Language) : Request → Parsing (Bool ⊕ Node)
  | .atEnd => do return .inl (← Language.atEnd)
  | .statement => do return .inr (← lang.parseStatement)

/-- the ends of some calls, one after the other, with the stream that each of them leaves -/
def Language.replies (lang : Language) : List Request → TokenStream → List (Ending (Bool ⊕ Node))
  | [], _ => []
  | r :: rs, s => (lang.perform r).run s :: replies lang rs (Ending.left ((lang.perform r).run s))

theorem agrees_perform (r : Request) : Agrees (Language.functions.perform r) (Language.closures.perform r) := by
  cases r with
  | atEnd =>
    rw [Language.perform, Language.perform]
    exact .refl (.bind (.bind .peek fun _ => .pure _) fun _ => .pure _)
  | statement => exact .bind agrees_parseStatement fun _ => .refl (.pure _)

/-- calls, one after the other, also after errors -/
theorem replies_agree (rs : List Request) {s : TokenStream} (hs : s.Lacks "fun") :
    Language.functions.replies rs s = Language.closures.replies rs s := by
  induction rs generalizing s with
  | nil => rw [Language.replies, Language.replies]
  | cons r rs ih =>
    obtain ⟨heq, hleft⟩ := agrees_perform r s hs
    rw [Language.replies, Language.replies, ih hleft, heq]

/-- **Levels are conservative.** A program of the basic level without the words `def` and `fun`, and without a closing
parenthesis as a name, is the same program at the levels with functions. On a text without the word `fun`, these two
levels do the same in all calls, errors and what is left of the stream included. -/
theorem levels_conservative (source : String) :
    (∀ ns, parseProgram .basic source = .ok ns → (ofSource source).Lacks "def" → (ofSource source).Lacks "fun" →
      (∀ n ∈ ns, ¬ n.HasName ")") → parseProgram .functions source = .ok ns ∧ parseProgram .closures source = .ok ns) ∧
    ((ofSource source).Lacks "fun" → ∀ rs,
      Language.functions.replies rs (ofSource source) = Language.closures.replies rs (ofSource source)) :=
  ⟨fun _ h hdef hfun hns => ⟨parseProgram_lifted h hdef hfun hns, parseProgram_lifted h hdef hfun hns⟩,
    fun hfun rs => replies_agree rs hfun⟩

/-- a condition in parentheses: what could be a call or arguments at other levels is neither -/
theorem levels_conservative_condition :
    ∃ ns, parseProgram .basic "while (x) \x7b y \x7d" = .ok ns ∧
      (parseProgram .functions "while (x) \x7b y \x7d" = .ok ns ∧ parseProgram .closures "while (x) \x7b y \x7d" = .ok ns) ∧
      ∀ rs, Language.functions.replies rs (ofSource "while (x) \x7b y \x7d") =
        Language.closures.replies rs (ofSource "while (x) \x7b y \x7d") := by
  have hparse : parseProgram .basic "while (x) \x7b y \x7d" =
      .ok [.list .loop [.leaf .name ⟨1, .identifier "x"⟩, .list .block [.leaf .name ⟨1, .identifier "y"⟩]]] := by
    cbv
  have hdef : (ofSource "while (x) \x7b y \x7d").Lacks "def" := by decide +kernel
  have hfun : (ofSource "while (x) \x7b y \x7d").Lacks "fun" := by decide +kernel
  refine ⟨_, hparse, (levels_conservative _).1 _ hparse hdef hfun fun n hn hname => ?_, (levels_conservative _).2 hfun⟩
  obtain rfl := List.mem_singleton.1 hn
  cases hname with
  | child hm hname =>
    rcases List.mem_cons.1 hm with rfl | hm
    · cases hname with
      | leaf h => exact absurd h (by decide)
    · obtain rfl := List.mem_singleton.1 hm
      cases hname with
      | child hm hname =>
        obtain rfl := List.mem_singleton.1 hm
        cases hname with
        | leaf h => exact absurd h (by decide)

end Stone
