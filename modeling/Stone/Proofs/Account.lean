/-
Parsing keeps account of every token. The tokens that a rule takes come back as the leaves of its tree, in the order of
the text; nothing is taken twice, and nothing is lost on the way through choices, collapsed lists, operands without
calls, repetitions that leave out empty trees, and operator chains. Only what a literal that is not kept has taken is
left out. The account of a derivation says which element took which token.

- `Accounts.takes`: an account has the tokens that were taken, in order.
- `Accounts.leaves`: the leaves are the tokens of the account that were kept.
- `tokens_accounted_for`: both for every rule of every table on every stream, and that asking what can come next takes
  nothing and depends on the next token alone.
-/
import Stone.Proofs.Sight

namespace Stone

open TokenStream Parsing Grammar

/-! ## Leaves -/

namespace Node

mutual

/-- the tokens of the leaves, from left to right -/
def leaves : Node → List Token
  | leaf _ t => [t]
  | list _ children => leavesAll children

def leavesAll : List Node → List Token
  | [] => []
  | n :: more => n.leaves ++ leavesAll more

end

@[simp] theorem leaves_leaf (kind : LeafKind) (t : Token) : (leaf kind t).leaves = [t] := by
  rw [leaves]

@[simp] theorem leaves_list (kind : ListKind) (ns : List Node) : (list kind ns).leaves = leavesAll ns := by
  rw [leaves]

@[simp] theorem leavesAll_nil : leavesAll [] = [] := by
  rw [leavesAll]

@[simp] theorem leavesAll_cons (n : Node) (more : List Node) : leavesAll (n :: more) = n.leaves ++ leavesAll more := by
  rw [leavesAll]

@[simp] theorem leavesAll_append (ns ms : List Node) : leavesAll (ns ++ ms) = leavesAll ns ++ leavesAll ms := by
  induction ns with
  | nil => simp
  | cons n ns ih => simp [ih]

/-- an operand without calls has the leaves of its list -/
@[simp] theorem leaves_build (kind : ListKind) (ns : List Node) : (kind.build ns).leaves = leavesAll ns := by
  unfold ListKind.build
  split <;> simp

/-- a collapsed list has the leaves of the list -/
@[simp] theorem leaves_make (b : Build) (ns : List Node) : (b.make ns).leaves = leavesAll ns := by
  unfold Build.make
  split <;> simp

/-- a tree that is left out has no leaves -/
theorem leaves_of_isVacuous {n : Node} (h : n.isVacuous = true) : n.leaves = [] := by
  unfold isVacuous at h
  split at h
  · simp
  · cases h

end Node

open Node

/-! ## Accounts -/

/-- does the element leave out what it takes -/
def Element.drops : Element → Bool
  | .literal _ keep => !keep
  | _ => false

/-- which element took which token -/
abbrev Account := List (Token × Element)

namespace Account

def tokens (a : Account) : List Token := a.map Prod.fst

/-- the tokens that were not left out -/
def kept (a : Account) : List Token := tokens (a.filter fun p => !p.2.drops)

variable (a b : Account)

@[simp] theorem tokens_append : tokens (a ++ b) = tokens a ++ tokens b := List.map_append

@[simp] theorem kept_append : kept (a ++ b) = kept a ++ kept b := by
  simp [kept]

@[simp] theorem kept_nil : kept [] = [] := rfl

theorem kept_cons (t : Token) (e : Element) : kept ((t, e) :: a) = (if e.drops then [] else [t]) ++ kept a := by
  rw [kept, List.filter_cons]
  cases e.drops <;> rfl

end Account

/-- a derivation with its account: the token of an operator is taken by the element of its chain -/
inductive Accounts (g : Grammar) : Nat → Task → List Token → List Node → Account → List Token → Prop
  | rule {n : Nat} {id : RuleId} {ts rest : List Token} {ns : List Node} {a : Account} :
      Accounts g n (.elements (g.rule id).elements) ts ns a rest →
      Accounts g (n + 1) (.rule id) ts [(g.rule id).build.make ns] a rest
  | nil {n : Nat} {ts : List Token} : Accounts g n (.elements []) ts [] [] ts
  | cons {n : Nat} {e : Element} {es : List Element} {ts mid rest : List Token} {ns ms : List Node} {a b : Account} :
      Accounts g n (.element e) ts ns a mid → Accounts g n (.elements es) mid ms b rest →
      Accounts g n (.elements (e :: es)) ts (ns ++ ms) (a ++ b) rest
  | call {n : Nat} {id : RuleId} {ts rest : List Token} {ns : List Node} {a : Account} :
      Accounts g n (.rule id) ts ns a rest → Accounts g n (.element (.rule id)) ts ns a rest
  | choice {n : Nat} {ids : List RuleId} {id : RuleId} {ts rest : List Token} {ns : List Node} {a : Account} :
      g.chosen (front ts) ids = some (some id) → Accounts g n (.rule id) ts ns a rest →
      Accounts g n (.element (.choice ids)) ts ns a rest
  | skipped {n : Nat} {id : RuleId} {ts : List Token} :
      g.begins (front ts) id = some false → Accounts g n (.element (.optional id)) ts [] [] ts
  | taken {n : Nat} {id : RuleId} {ts rest : List Token} {m : Node} {a : Account} :
      g.begins (front ts) id = some true → Accounts g n (.rule id) ts [m] a rest →
      Accounts g n (.element (.optional id)) ts (if m.isVacuous then [] else [m]) a rest
  | repetition {n : Nat} {id : RuleId} {ts rest : List Token} {ns : List Node} {a : Account} :
      Accounts g n (.many id) ts ns a rest → Accounts g n (.element (.many id)) ts ns a rest
  | manyNil {n : Nat} {id : RuleId} {ts : List Token} :
      g.begins (front ts) id = some false → Accounts g n (.many id) ts [] [] ts
  | manyCons {n : Nat} {id : RuleId} {ts mid rest : List Token} {m : Node} {ns : List Node} {a b : Account} :
      g.begins (front ts) id = some true → Accounts g n (.rule id) ts [m] a mid → Accounts g n (.many id) mid ns b rest →
      Accounts g n (.many id) ts (if m.isVacuous then ns else m :: ns) (a ++ b) rest
  | token {n : Nat} {cls : TokenClass} {kind : LeafKind} {t : Token} {ts : List Token} :
      cls.accepts t = true →
      Accounts g n (.element (.token cls kind)) (t :: ts) [.leaf kind t] [(t, .token cls kind)] ts
  | literal {n : Nat} {texts : List String} {keep : Bool} {t : Token} {ts : List Token} :
      texts.any t.isLiteral = true →
      Accounts g n (.element (.literal texts keep)) (t :: ts) (if keep then [.leaf .mark t] else [])
        [(t, .literal texts keep)] ts
  | chain {n : Nat} {id : RuleId} {table : OperatorTable} {kind : ListKind} {ts mid rest : List Token} {first : Node}
      {ns : List Node} {a b : Account} :
      Accounts g n (.rule id) ts [first] a mid → Accounts g n (.climb id table kind none first) mid ns b rest →
      Accounts g n (.element (.operators id table kind)) ts ns (a ++ b) rest
  | climbStop {n : Nat} {id : RuleId} {table : OperatorTable} {kind : ListKind} {waiting : Option Precedence}
      {left : Node} {ts : List Token} :
      (∀ p, operatorOf table (front ts) = some p → yields waiting p = false) →
      Accounts g n (.climb id table kind waiting left) ts [left] [] ts
  | climbStep {n : Nat} {id : RuleId} {table : OperatorTable} {kind : ListKind} {waiting : Option Precedence}
      {left first right : Node} {op : Token} {ts mid after rest : List Token} {ns : List Node} {p : Precedence}
      {a b c : Account} :
      operatorOf table op = some p → yields waiting p = true → Accounts g n (.rule id) ts [first] a mid →
      Accounts g n (.climb id table kind (some p) first) mid [right] b after →
      Accounts g n (.climb id table kind waiting (kind.build [left, .leaf .mark op, right])) after ns c rest →
      Accounts g n (.climb id table kind waiting left) (op :: ts) ns ((op, .operators id table kind) :: (a ++ (b ++ c)))
        rest

/-- every derivation has an account -/
theorem Derives.account {g : Grammar} {n : Nat} {task : Task} {ts rest : List Token} {ns : List Node}
    (h : Derives g n task ts ns rest) : ∃ a, Accounts g n task ts ns a rest := by
  induction h with
  | rule _ ih => exact ih.imp fun _ => .rule
  | nil => exact ⟨[], .nil⟩
  | cons _ _ ih1 ih2 =>
    obtain ⟨a, ha⟩ := ih1
    obtain ⟨b, hb⟩ := ih2
    exact ⟨a ++ b, .cons ha hb⟩
  | call _ ih => exact ih.imp fun _ => .call
  | choice hc _ ih => exact ih.imp fun _ => .choice hc
  | skipped hb => exact ⟨[], .skipped hb⟩
  | taken hb _ ih => exact ih.imp fun _ => .taken hb
  | repetition _ ih => exact ih.imp fun _ => .repetition
  | manyNil hb => exact ⟨[], .manyNil hb⟩
  | manyCons hb _ _ ih1 ih2 =>
    obtain ⟨a, ha⟩ := ih1
    obtain ⟨b, hb'⟩ := ih2
    exact ⟨a ++ b, .manyCons hb ha hb'⟩
  | token ha => exact ⟨_, .token ha⟩
  | literal ha => exact ⟨_, .literal ha⟩
  | chain _ _ ih1 ih2 =>
    obtain ⟨a, ha⟩ := ih1
    obtain ⟨b, hb⟩ := ih2
    exact ⟨a ++ b, .chain ha hb⟩
  | climbStop hs => exact ⟨[], .climbStop hs⟩
  | climbStep ho hy _ _ _ ih1 ih2 ih3 =>
    obtain ⟨a, ha⟩ := ih1
    obtain ⟨b, hb⟩ := ih2
    obtain ⟨c, hc⟩ := ih3
    exact ⟨_, .climbStep ho hy ha hb hc⟩

/-- the leaves that a task has before it takes anything -/
def Task.carried : Task → List Token
  | .climb _ _ _ _ left => left.leaves
  | _ => []

namespace Accounts

variable {g : Grammar} {n : Nat} {task : Task} {ts rest : List Token} {ns : List Node} {a : Account}

/-- **Every token is in the account once**, in order. -/
theorem takes (h : Accounts g n task ts ns a rest) : ts = a.tokens ++ rest := by
  induction h with
  | rule _ ih | call _ ih | choice _ _ ih | taken _ _ ih | repetition _ ih => exact ih
  | nil | skipped _ | manyNil _ | climbStop _ | token _ | literal _ => rfl
  | cons _ _ ih1 ih2 | manyCons _ _ _ ih1 ih2 | chain _ _ ih1 ih2 =>
    rw [Account.tokens_append, List.append_assoc, ← ih2, ← ih1]
  | climbStep _ _ _ _ _ ih1 ih2 ih3 =>
    rw [ih1, ih2, ih3]
    simp [Account.tokens]

/-- **The leaves are the tokens that were kept**, in order. -/
theorem leaves (h : Accounts g n task ts ns a rest) : leavesAll ns = task.carried ++ a.kept := by
  induction h with
  | rule _ ih =>
    rw [leavesAll_cons, leaves_make, leavesAll_nil, List.append_nil]
    exact ih
  | call _ ih | choice _ _ ih | repetition _ ih => exact ih
  | nil | skipped _ | manyNil _ | token _ => rfl
  | cons _ _ ih1 ih2 =>
    rw [leavesAll_append, ih1, ih2, Account.kept_append]
    rfl
  | @taken n id ts rest m a _ _ ih =>
    cases hm : m.isVacuous with
    | false => exact ih
    | true =>
      rw [leavesAll_cons, leaves_of_isVacuous hm] at ih
      exact ih
  | @manyCons n id ts mid rest m ns a b _ _ _ ih1 ih2 =>
    rw [Account.kept_append]
    rw [leavesAll_cons, leavesAll_nil, List.append_nil] at ih1
    cases hm : m.isVacuous with
    | false =>
      simp only [Bool.false_eq_true, if_false, leavesAll_cons, ih1, ih2]
      rfl
    | true =>
      rw [leaves_of_isVacuous hm] at ih1
      have ha : a.kept = [] := ih1.symm
      rw [ha]
      exact ih2
  | @literal n texts keep t ts ha =>
    cases keep <;> rfl
  | chain _ _ ih1 ih2 =>
    rw [leavesAll_cons, leavesAll_nil, List.append_nil] at ih1
    rw [ih2, Account.kept_append, Task.carried, ih1]
    rfl
  | climbStop _ => rw [leavesAll_cons, leavesAll_nil, Task.carried, Account.kept_nil]
  | @climbStep n id table kind waiting left first right op ts mid after rest ns p a b c _ _ _ _ _ ih1 ih2 ih3 =>
    have hfirst : first.leaves = a.kept := by simpa [Task.carried] using ih1
    have hright : right.leaves = first.leaves ++ b.kept := by simpa [Task.carried] using ih2
    -- the chain goes on from a tree that has the leaves of `left`, the operator and the right side
    calc leavesAll ns = (kind.build [left, .leaf .mark op, right]).leaves ++ c.kept := ih3
      _ = left.leaves ++ op :: (a.kept ++ (b.kept ++ c.kept)) := by simp [hright, hfirst]
      _ = left.leaves ++ Account.kept ((op, .operators id table kind) :: (a ++ (b ++ c))) := by
        simp [Account.kept_cons, Element.drops]

end Accounts

/-! ## Parsing -/

/-- **Every token is accounted for.** When a rule has been parsed, the tokens that it took are the tokens of an account
of the parse, and the leaves of its tree are those that were not taken by literals that are left out, both in the order
of the stream. Asking whether a rule can begin takes nothing, except that it drops the error that it answers, and its
answer depends on the next token or error alone. -/
theorem tokens_accounted_for (g : Grammar) (id : RuleId) :
    (∀ s n s', (g.parse id).run s = .ok n s' → ∃ a : Account,
      Accounts g maxNesting (.rule id) s.tokens [n] a s'.tokens ∧ s.content = a.tokens.map .ok ++ s'.content ∧
        n.leaves = a.kept) ∧
      (∀ s, (Ending.left ((g.canBegin id).run s)).content = s.content ∨
        ∃ e, outcome ((g.canBegin id).run s) = .error (.raised (.scan e)) ∧
          s.content = .error e :: (Ending.left ((g.canBegin id).run s)).content) ∧
      ∀ s s' : TokenStream, (s.peek 0).1 = (s'.peek 0).1 →
        outcome ((g.canBegin id).run s) = outcome ((g.canBegin id).run s') := by
  refine ⟨fun s n s' hr => ?_, canBegin_takes_nothing g id, fun s s' => canBegin_by_next g id⟩
  obtain ⟨a, ha⟩ := (parse_derives hr).1.account
  refine ⟨a, ha, ?_, ?_⟩
  · rw [run_parse] at hr
    obtain ⟨ts, hts⟩ := (built_parseRule g _ maxNesting id).taken hr
    have htaken : s.tokens = ts ++ s'.tokens := by
      rw [tokens_eq_reached, tokens_eq_reached, hts, reached_append]
    rw [ha.takes] at htaken
    rw [List.append_cancel_right htaken, hts]
  · have hleaves := ha.leaves
    rwa [leavesAll_cons, leavesAll_nil, List.append_nil] at hleaves

/-- in `{ ; x ; ; }` the braces and all ends of statements are left out, and so are the empty trees between them -/
theorem tokens_accounted_for_block :
    let ts := ["\x7b", ";", "x", ";", ";", "\x7d"].map (Token.identifier 1)
    (Level.basic.grammar.parse Place.block).run (ofTokens ts) =
        .ok (.list .block [.leaf .name (Token.identifier 1 "x")]) (ofTokens []) ∧
      ∃ a : Account, a.tokens = ts ∧ a.kept = [Token.identifier 1 "x"] := by
  intro ts
  have hr : (Level.basic.grammar.parse Place.block).run (ofTokens ts) =
      .ok (.list .block [.leaf .name (Token.identifier 1 "x")]) (ofTokens []) := by rfl
  obtain ⟨a, -, htaken, hleaves⟩ := (tokens_accounted_for _ _).1 _ _ _ hr
  refine ⟨hr, a, ?_, ?_⟩
  · rw [content_ofTokens, content_ofTokens, List.map_nil, List.append_nil] at htaken
    exact (List.map_injective_iff.2 (fun _ _ => Except.ok.inj) htaken).symm
  · rw [← hleaves, leaves_list, leavesAll_cons, leavesAll_nil, leaves_leaf]
    rfl

end Stone
