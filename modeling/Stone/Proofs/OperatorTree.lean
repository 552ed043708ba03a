/-
Operator trees. An operator chain is operands with operators between them, and parsing makes one tree of it. The tree
reads from left to right as the chain does, and it respects the precedences: an operator takes the operand between two
of them only if the one before yields to it. That determines the tree, for every table of operators.

- `OperatorTree.Ordered.unique`: at most one tree with a given reading respects the precedences.
- `climb_builds`: what one loop of precedence climbing adds to the tree that it has.
- `operators_build_the_tree`: the tree that parsing gives, on every stream and for all kinds of operands.
-/
import Stone.Proofs.Derivation

namespace Stone

open TokenStream Parsing Grammar

/-! ## Precedences -/

namespace Precedence

theorem yieldsTo_iff {p q : Precedence} :
    p.yieldsTo q = true ↔ p.level < q.level ∨ p.level = q.level ∧ p.associativity = .right := by
  simp [yieldsTo, eq_comm (a := q.level)]

theorem le_of_yieldsTo {p q : Precedence} (h : p.yieldsTo q = true) : p.level ≤ q.level := by
  rcases yieldsTo_iff.1 h with h | ⟨h, -⟩ <;> omega

theorem le_of_not_yieldsTo {p q : Precedence} (h : p.yieldsTo q = false) : q.level ≤ p.level := by
  by_contra hlt
  have hyields : p.yieldsTo q = true := yieldsTo_iff.2 (.inl (not_le.1 hlt))
  rw [h] at hyields
  cases hyields

/-- what yields to an operator yields to all that bind as tight -/
theorem yieldsTo_tighter {p q r : Precedence} (h : p.yieldsTo q = true) (hr : q.level ≤ r.level) :
    p.yieldsTo r = true := by
  rw [yieldsTo_iff] at h ⊢
  rcases h with h | ⟨h, hright⟩
  · left; omega
  · by_cases heq : p.level = r.level
    · exact .inr ⟨heq, hright⟩
    · left; omega

/-- what does not yield to an operator does not yield to those that this one does not yield to -/
theorem not_yieldsTo_trans {p q r : Precedence} (hq : p.yieldsTo q = false) (hr : q.yieldsTo r = false) :
    p.yieldsTo r = false := by
  have hpq := le_of_not_yieldsTo hq
  have hqr := le_of_not_yieldsTo hr
  by_contra hyields
  rw [Bool.not_eq_false, yieldsTo_iff] at hyields
  -- all three bind equally tight, and the first one is for the right
  have hsame : p.yieldsTo q = true := by
    rw [yieldsTo_iff]
    rcases hyields with h | ⟨h, hright⟩
    · omega
    · exact .inr ⟨by omega, hright⟩
  rw [hq] at hsame
  cases hsame

/-- what an operator yields to that does not yield to a third does not yield to it either -/
theorem not_yieldsTo_of_yieldsTo {p q r : Precedence} (hq : p.yieldsTo q = true) (hr : p.yieldsTo r = false) :
    q.yieldsTo r = false := by
  have hpq := le_of_yieldsTo hq
  have hpr := le_of_not_yieldsTo hr
  by_contra hyields
  rw [Bool.not_eq_false, yieldsTo_iff] at hyields
  have hlevel : p.level = q.level ∧ r.level = p.level := by omega
  -- the first one yields to the second though they bind equally tight, so it yields to the third as well
  have hsame : p.yieldsTo r = true := by
    rw [yieldsTo_iff] at hq ⊢
    rcases hq with h | ⟨-, hright⟩
    · omega
    · exact .inr ⟨hlevel.2.symm, hright⟩
  rw [hr] at hsame
  cases hsame

end Precedence

/-! ## Trees -/

/-- operands joined by operators; what the operands are made of does not matter -/
inductive OperatorTree where
  | operand (n : Node)
  | join (left : OperatorTree) (op : Token) (right : OperatorTree)

namespace OperatorTree

/-- the tree as a node, where joined operands are lists of a kind -/
def toNode (kind : ListKind) : OperatorTree → Node
  | operand n => n
  | join a op b => kind.build [a.toNode kind, .leaf .mark op, b.toNode kind]

/-- the operand on the left end -/
def first : OperatorTree → Node
  | operand n => n
  | join a _ _ => a.first

/-- what follows the first operand: operators, each with the operand after it, from left to right -/
def rest : OperatorTree → List (Token × Node)
  | operand _ => []
  | join a op b => a.rest ++ (op, b.first) :: b.rest

/-- the precedence of the operator that joins the whole tree -/
def precedence? (table : OperatorTable) : OperatorTree → Option Precedence
  | operand _ => none
  | join _ op _ => operatorOf table op

/-- every operator is one of the table, yields to the operator that joins its right side, and is not yielded to by the
one that joins its left side -/
def Ordered (table : OperatorTable) : OperatorTree → Prop
  | operand _ => True
  | join a op b => a.Ordered table ∧ b.Ordered table ∧ ∃ p, operatorOf table op = some p ∧
      (∀ q, a.precedence? table = some q → q.yieldsTo p = false) ∧
      ∀ q, b.precedence? table = some q → p.yieldsTo q = true

variable {table : OperatorTable} {t u : OperatorTree} {p q : Precedence} {op : Token} {n : Node}

/-- **Down the right side.** What yields to the operator of a tree yields to all operators in it. -/
theorem Ordered.yieldsTo_all (ht : t.Ordered table) (h : ∀ r, t.precedence? table = some r → p.yieldsTo r = true)
    (hm : (op, n) ∈ t.rest) (hq : operatorOf table op = some q) : p.yieldsTo q = true := by
  induction t with
  | operand m => cases hm
  | join a mark b iha ihb =>
    obtain ⟨ha, hb, r, hr, hleft, hright⟩ := ht
    have hpr : p.yieldsTo r = true := h r hr
    rcases List.mem_append.1 hm with hm | hm
    · apply iha ha _ hm
      intro s hs
      exact Precedence.yieldsTo_tighter hpr (Precedence.le_of_not_yieldsTo (hleft s hs))
    · rcases List.mem_cons.1 hm with hm | hm
      · cases hm
        rw [hr] at hq
        cases hq
        exact hpr
      · apply ihb hb _ hm
        intro s hs
        exact Precedence.yieldsTo_tighter hpr (Precedence.le_of_yieldsTo (hright s hs))

/-- **Down the left side.** What the operator of a tree does not yield to, no operator in it yields to. -/
theorem Ordered.not_yieldsTo_all (ht : t.Ordered table)
    (h : ∀ r, t.precedence? table = some r → r.yieldsTo p = false)
    (hm : (op, n) ∈ t.rest) (hq : operatorOf table op = some q) : q.yieldsTo p = false := by
  induction t with
  | operand m => cases hm
  | join a mark b iha ihb =>
    obtain ⟨ha, hb, r, hr, hleft, hright⟩ := ht
    have hrp : r.yieldsTo p = false := h r hr
    rcases List.mem_append.1 hm with hm | hm
    · apply iha ha _ hm
      intro s hs
      exact Precedence.not_yieldsTo_trans (hleft s hs) hrp
    · rcases List.mem_cons.1 hm with hm | hm
      · cases hm
        rw [hr] at hq
        cases hq
        exact hrp
      · apply ihb hb _ hm
        intro s hs
        exact Precedence.not_yieldsTo_of_yieldsTo (hright s hs) hrp

/-- of two trees with the same reading, the second is not joined by a later operator than the first -/
theorem Ordered.not_later {a b c d : OperatorTree} {mark mark' : Token} {between : List (Token × Node)}
    (ht : (join a mark b).Ordered table) (hu : (join c mark' d).Ordered table) (hc : c.rest = a.rest ++ between)
    (hb : (mark, b.first) :: b.rest = between ++ (mark', d.first) :: d.rest) : between = [] := by
  obtain ⟨-, hbo, p, hp, -, hright⟩ := ht
  obtain ⟨hco, -, q, hq, hleft, -⟩ := hu
  cases between with
  | nil => rfl
  | cons e between =>
    obtain ⟨rfl, hmore⟩ : (mark, b.first) = e ∧ b.rest = between ++ (mark', d.first) :: d.rest := List.cons.inj hb
    have hin : (mark', d.first) ∈ b.rest := by
      rw [hmore]
      exact List.mem_append_right _ List.mem_cons_self
    have hin' : (mark, b.first) ∈ c.rest := by
      rw [hc]
      exact List.mem_append_right _ List.mem_cons_self
    -- the first tree says that one operator yields to the other, the second that it does not
    have hyes : p.yieldsTo q = true := hbo.yieldsTo_all hright hin hq
    have hno : p.yieldsTo q = false := hco.not_yieldsTo_all hleft hin' hp
    rw [hyes] at hno
    cases hno

/-- trees with the same reading are joined by the same operator -/
theorem Ordered.split {a b c d : OperatorTree} {mark mark' : Token} (ht : (join a mark b).Ordered table)
    (hu : (join c mark' d).Ordered table) (h : (join a mark b).rest = (join c mark' d).rest) :
    a.rest = c.rest ∧ (mark, b.first) :: b.rest = (mark', d.first) :: d.rest := by
  rcases List.append_eq_append_iff.1 h with ⟨between, hc, hb⟩ | ⟨between, ha, hd⟩
  · obtain rfl := ht.not_later hu hc hb
    exact ⟨by simpa using hc.symm, hb⟩
  · obtain rfl := hu.not_later ht ha hd
    exact ⟨by simpa using ha, hd.symm⟩

/-- **The reading determines the tree**, if the precedences are respected. -/
theorem Ordered.unique (ht : t.Ordered table) (hu : u.Ordered table) (hfirst : t.first = u.first)
    (hrest : t.rest = u.rest) : t = u := by
  induction t generalizing u with
  | operand m =>
    cases u with
    | operand k => rw [show m = k from hfirst]
    | join c mark' d => simp [rest] at hrest
  | join a mark b iha ihb =>
    cases u with
    | operand k => simp [rest] at hrest
    | join c mark' d =>
      obtain ⟨hleft, hmore⟩ := ht.split hu hrest
      simp only [List.cons.injEq, Prod.mk.injEq] at hmore
      obtain ⟨⟨rfl, hbd⟩, hright⟩ := hmore
      rw [iha ht.1 hu.1 hfirst hleft, ihb ht.2.1 hu.2.1 hbd hright]

end OperatorTree

/-! ## Chains on a stream -/

section Streams

variable {table : OperatorTable} {operand : Parsing Node} {s s₁ s₂ s' : TokenStream} {t : Token}

theorem peek_of_run (h : Parsing.peek.run s = .ok t s') : s.peek 0 = (.ok t, s') := by
  rw [run_peek_eq] at h
  rcases hp : s.peek 0 with ⟨e | u, s₁⟩
  · rw [hp] at h
    cases h
  · rw [hp] at h
    cases h
    rfl

/-- the token that was seen is seen again -/
theorem run_peek_again (h : Parsing.peek.run s = .ok t s') : Parsing.peek.run s' = .ok t s' := by
  rw [run_peek_eq, peek_again (peek_of_run h)]

/-- the token that was seen is the next one taken, as if nobody had looked -/
theorem run_read_seen (h : Parsing.peek.run s = .ok t s') {u : Token} {rest : TokenStream}
    (hr : Parsing.read.run s' = .ok u rest) : u = t ∧ Parsing.read.run s = .ok u rest := by
  have hp := peek_of_run h
  rw [run_read_eq, peek_again hp] at hr
  cases hr
  refine ⟨rfl, ?_⟩
  rw [run_read_eq, hp]

theorem nextOperator_sees {o : Option Precedence} (h : (nextOperator table).run s = .ok o s') :
    ∃ next, Parsing.peek.run s = .ok next s' ∧ o = operatorOf table next := by
  obtain ⟨next, mid, hp, h⟩ := ok_of_bind h
  refine ⟨next, ?_⟩
  rw [operatorOf]
  cases hx : next.lexeme <;> rw [hx] at h <;> cases h <;> exact ⟨hp, rfl⟩

variable (table operand) in
/-- these operators of the table are taken from the stream, each with the operand after it; then `t` is seen and left -/
inductive OperatorChain : TokenStream → List (Token × Node) → Token → TokenStream → Prop
  | done {s s' : TokenStream} {t : Token} : Parsing.peek.run s = .ok t s' → OperatorChain s [] t s'
  | more {s s₁ s₂ s' : TokenStream} {op t : Token} {n : Node} {p : Precedence} {pairs : List (Token × Node)} :
      Parsing.read.run s = .ok op s₁ → operatorOf table op = some p → operand.run s₁ = .ok n s₂ →
      OperatorChain s₂ pairs t s' → OperatorChain s ((op, n) :: pairs) t s'

namespace OperatorChain

variable {pairs others : List (Token × Node)} {u : Token}

theorem seen (h : OperatorChain table operand s pairs t s') : Parsing.peek.run s' = .ok t s' := by
  induction h with
  | done hp => exact run_peek_again hp
  | more _ _ _ _ ih => exact ih

/-- looking ahead makes no difference to a chain -/
theorem of_peek (hp : Parsing.peek.run s = .ok u s₁) (h : OperatorChain table operand s₁ pairs t s') :
    OperatorChain table operand s pairs t s' := by
  cases h with
  | done hp' =>
    rw [run_peek_again hp] at hp'
    cases hp'
    exact .done hp
  | more hr ho hn hm => exact .more (run_read_seen hp hr).2 ho hn hm

/-- a chain goes on where another one stopped -/
theorem append (h : OperatorChain table operand s pairs u s₁) (hm : OperatorChain table operand s₁ others t s') :
    OperatorChain table operand s (pairs ++ others) t s' := by
  induction h with
  | done hp => exact of_peek hp hm
  | more hr ho hn _ ih => exact .more hr ho hn (ih hm)

end OperatorChain

/-! ## Precedence climbing -/

/-- **One loop of precedence climbing.** From a tree that respects the precedences, and whose operator does not yield to
the next one, it makes such a tree again: the reading has grown by a chain that stops at a token that the waiting
operator does not yield to, and the operator on top is the old one or one that the waiting operator yields to. -/
theorem climb_builds {kind : ListKind} {budget : Nat} {waiting : Option Precedence} (tree : OperatorTree) {n : Node}
    (hrun : (climb table kind operand budget waiting (tree.toNode kind)).run s = .ok n s')
    (htree : tree.Ordered table)
    (hnext : ∀ next mid, Parsing.peek.run s = .ok next mid → ∀ p q, tree.precedence? table = some p →
      operatorOf table next = some q → p.yieldsTo q = false) :
    ∃ (grown : OperatorTree) (pairs : List (Token × Node)) (next : Token), n = grown.toNode kind ∧
      grown.Ordered table ∧ grown.first = tree.first ∧ grown.rest = tree.rest ++ pairs ∧
      OperatorChain table operand s pairs next s' ∧
      (∀ p, operatorOf table next = some p → yields waiting p = false) ∧
      ∀ p, grown.precedence? table = some p → tree.precedence? table = some p ∨ yields waiting p = true := by
  induction budget generalizing waiting tree s n s' with
  | zero => cases hrun
  | succ budget ih =>
    rw [climb] at hrun
    obtain ⟨o, s₁, h1, hrun⟩ := ok_of_bind hrun
    obtain ⟨next, hpeek, rfl⟩ := nextOperator_sees h1
    cases ho : operatorOf table next with
    | none =>
      rw [ho] at hrun
      cases hrun
      refine ⟨tree, [], next, rfl, htree, rfl, by simp, .done hpeek, ?_, fun p hp => .inl hp⟩
      intro p hp
      rw [ho] at hp
      cases hp
    | some p =>
      rw [ho] at hrun
      by_cases hy : yields waiting p = true
      · simp only [hy, if_true] at hrun
        obtain ⟨op, s₂, h2, hrun⟩ := ok_of_bind hrun
        obtain ⟨rfl, hread⟩ := run_read_seen hpeek h2
        obtain ⟨f, s₃, h3, hrun⟩ := ok_of_bind hrun
        obtain ⟨right, s₄, h4, hrun⟩ := ok_of_bind hrun
        -- the right side is the operand, grown by what the operator yields to
        obtain ⟨grown, inner, stop, rfl, hgrown, hfirst, hrest, hchain, hstop, htop⟩ :=
          ih (.operand f) h4 trivial fun _ _ _ _ _ hq => by cases hq
        have hjoin : (OperatorTree.join tree op grown).Ordered table := by
          refine ⟨htree, hgrown, p, ho, ?_, ?_⟩
          · intro q hq
            exact hnext op s₁ hpeek q p hq ho
          · intro q hq
            rcases htop q hq with h | h
            · cases h
            · exact h
        obtain ⟨whole, outer, last, hn, hwhole, hwfirst, hwrest, hwchain, hwstop, hwtop⟩ :=
          ih (.join tree op grown) hrun hjoin (by
            intro next mid hp q r hq hr
            rw [hchain.seen] at hp
            cases hp
            obtain rfl : p = q := Option.some.inj (ho.symm.trans hq)
            exact hstop r hr)
        refine ⟨whole, (op, f) :: (inner ++ outer), last, hn, hwhole, hwfirst, ?_, ?_, hwstop, ?_⟩
        · rw [hwrest, OperatorTree.rest, hrest, hfirst]
          simp [OperatorTree.first, OperatorTree.rest]
        · exact .more hread ho h3 (hchain.append hwchain)
        · intro q hq
          rcases hwtop q hq with h | h
          · obtain rfl : p = q := Option.some.inj (ho.symm.trans h)
            exact .inr hy
          · exact .inr h
      · simp only [hy] at hrun
        cases hrun
        refine ⟨tree, [], next, rfl, htree, rfl, by simp, .done hpeek, ?_, fun q hq => .inl hq⟩
        intro q hq
        obtain rfl : p = q := Option.some.inj (ho.symm.trans hq)
        simpa using hy

/-- **Precedence climbing builds the one correct tree.** Whatever the table, the operands and the stream: where parsing
an operator chain succeeds it has read an operand, and then operators of the table with an operand after each, up to the
first token that is no operator of the table and that is left where it is. What it gives is the tree that reads so and
respects the precedences, and there is no other such tree. -/
theorem operators_build_the_tree {g : Grammar} {budget : Nat} {parse : RuleId → Parsing Node} {id : RuleId}
    {table : OperatorTable} {kind : ListKind} {s s' : TokenStream} {ns : List Node}
    (h : (parseElement g budget parse (.operators id table kind)).run s = .ok ns s') :
    ∃ (f : Node) (mid : TokenStream) (pairs : List (Token × Node)) (next : Token),
      (parse id).run s = .ok f mid ∧ OperatorChain table (parse id) mid pairs next s' ∧ operatorOf table next = none ∧
      ∃ tree : OperatorTree, (tree.first = f ∧ tree.rest = pairs ∧ tree.Ordered table) ∧ ns = [tree.toNode kind] ∧
        ∀ other : OperatorTree, other.first = f → other.rest = pairs → other.Ordered table → other = tree := by
  obtain ⟨f, mid, hf, h⟩ := ok_of_bind h
  obtain ⟨n, s₂, hclimb, h⟩ := ok_of_bind h
  cases h
  obtain ⟨tree, pairs, next, rfl, hordered, hfirst, hrest, hchain, hstop, -⟩ :=
    climb_builds (.operand f) hclimb trivial fun _ _ _ _ _ hq => by cases hq
  have hfirst : tree.first = f := hfirst
  have hrest : tree.rest = pairs := by simpa [OperatorTree.rest] using hrest
  refine ⟨f, mid, pairs, next, hf, hchain, ?_, tree, ⟨hfirst, hrest, hordered⟩, rfl, ?_⟩
  · cases ho : operatorOf table next with
    | none => rfl
    | some p => exact absurd (hstop p ho) (by simp [yields])
  · intro other hf' hr' ho'
    exact ho'.unique hordered (hf'.trans hfirst.symm) (hr'.trans hrest.symm)

/-- operators of one level that are for the left and for the right: in `a + b ^ c + d` the operator for the right joins
the whole chain, between two that are for the left -/
theorem mixed_operators_build_the_tree :
    let table : OperatorTable := ⟨[("+", ⟨1, .left⟩), ("^", ⟨1, .right⟩)]⟩
    let word (text : String) : Token := ⟨1, .identifier text⟩
    let one (_ : RuleId) : Parsing Node := do return .leaf .name (← Parsing.read)
    let sum (a b : String) : Node := .list .binary [.leaf .name (word a), .leaf .mark (word "+"), .leaf .name (word b)]
    let n : Node := .list .binary [sum "a" "b", .leaf .mark (word "^"), sum "c" "d"]
    (parseElement .empty 4 one (.operators 0 table .binary)).run
        (ofTokens (["a", "+", "b", "^", "c", "+", "d"].map word)) = .ok [n] (ofTokens []) ∧
      ∃ (f : Node) (mid : TokenStream) (pairs : List (Token × Node)) (tree : OperatorTree),
        OperatorChain table (one 0) mid pairs Token.inputEnd (ofTokens []) ∧
          (tree.first = f ∧ tree.rest = pairs ∧ tree.Ordered table) ∧ [n] = [tree.toNode .binary] ∧
          ∀ other : OperatorTree, other.first = f → other.rest = pairs → other.Ordered table → other = tree := by
  intro table word one sum n
  have hrun : (parseElement .empty 4 one (.operators 0 table .binary)).run
      (ofTokens (["a", "+", "b", "^", "c", "+", "d"].map word)) = .ok [n] (ofTokens []) := by rfl
  obtain ⟨f, mid, pairs, next, -, hchain, -, tree, htree, hn, honly⟩ := operators_build_the_tree hrun
  have hnext := hchain.seen
  rw [run_peek] at hnext
  cases hnext
  exact ⟨hrun, f, mid, pairs, tree, hchain, htree, hn, honly⟩

end Streams

end Stone
