/-
The height of parsed trees. Rules nest only so deep while they parse, and every list in a tree is built by a rule that
is at work while all that stands in the list is read. The lists of operator chains are the exception: a loop builds
them, between rules that have come to their end, and the next operand begins at the depth of the one before. So the
limit on nesting bounds a tree apart from its operators, and with them its height has no bound.

- `Derives.nesting_le`: in any table, the nesting of a tree by the nesting of the rules that gave it.
- `LongSum.height_tree`: sums are as high as they are long.
- `parsed_nesting_bounded`: what the limit does for parsed statements, and what it does not.
-/
import Stone.Proofs.Lookahead
import Stone.Proofs.TooDeep

namespace Stone

open TokenStream Grammar Stone.Language

/-! ## Heights -/

namespace Node

mutual

/-- the longest way from the root to a leaf or an empty list, where only lists of some kinds count -/
def levels (counts : ListKind → Bool) : Node → Nat
  | leaf _ _ => 1
  | list kind children => levelsOfAll counts children + if counts kind then 1 else 0

def levelsOfAll (counts : ListKind → Bool) : List Node → Nat
  | [] => 0
  | n :: more => max (levels counts n) (levelsOfAll counts more)

end

/-- how many nodes lie one inside the other -/
def height : Node → Nat := levels fun _ => true

/-- the height, where operators do not count -/
def nesting : Node → Nat := levels fun kind => kind != .binary

variable {counts : ListKind → Bool} {ns : List Node} {bound : Nat}

theorem levelsOfAll_le : levelsOfAll counts ns ≤ bound ↔ ∀ n ∈ ns, n.levels counts ≤ bound := by
  induction ns with
  | nil => simp [levelsOfAll]
  | cons n more ih => simp [levelsOfAll, ih]

theorem levels_list (kind : ListKind) (children : List Node) :
    (list kind children).levels counts = levelsOfAll counts children + if counts kind then 1 else 0 := by
  rw [levels]

/-- a list is at most one higher than what stands in it -/
theorem levels_list_le {kind : ListKind} (h : ∀ n ∈ ns, n.levels counts ≤ bound) :
    (list kind ns).levels counts ≤ bound + 1 := by
  have hall := levelsOfAll_le.2 h
  rw [levels_list]
  split <;> omega

theorem nesting_binary_le (h : ∀ n ∈ ns, n.nesting ≤ bound) : (list .binary ns).nesting ≤ bound := by
  have hall := levelsOfAll_le.2 h
  rw [nesting, levels_list]
  simpa using hall

/-- without operators both are the same -/
theorem height_eq_nesting {n : Node} (hn : n.Lacks [.binary]) : n.height = n.nesting := by
  have hall : ∀ ns : List Node, (∀ n ∈ ns, n.height = n.nesting) →
      levelsOfAll (fun _ => true) ns = levelsOfAll (fun kind => kind != .binary) ns := by
    intro ns hns
    induction ns with
    | nil => rfl
    | cons n more ih =>
      obtain ⟨hn, hm⟩ := List.forall_mem_cons.1 hns
      rw [levelsOfAll, levelsOfAll, ih hm, show n.levels _ = n.levels _ from hn]
  induction n using induct with
  | leaf kind t => rfl
  | list kind children ih =>
    have hkind : kind ≠ .binary := by
      intro hk
      have hself := hn _ .here .binary (by simp)
      simp [is, hk] at hself
    have hchildren := hall children fun n hc => ih n hc fun m hm => hn m (.inside hc hm)
    rw [height, nesting, levels_list, levels_list, hchildren]
    simp [hkind]

end Node

/-! ## Rules that build and rules that nest -/

theorem nesting_make_le {b : Build} {ns : List Node} {bound : Nat} (h : ∀ n ∈ ns, n.nesting ≤ bound) :
    (b.make ns).nesting ≤ bound + 1 := by
  have hlist : ∀ kind, (Node.list kind ns).nesting ≤ bound + 1 := fun kind => Node.levels_list_le h
  have honly : ∀ n, ns = [n] → n.nesting ≤ bound + 1 := by
    rintro n rfl
    exact (h n (by simp)).trans (Nat.le_succ _)
  unfold Build.make
  split
  · unfold ListKind.build
    split
    · exact honly _ rfl
    · exact hlist _
  · exact honly _ rfl
  · exact hlist .plain

/-- does the element make binary lists of operator chains, if it reads any -/
def Element.joinsBinary : Element → Bool
  | .operators _ _ kind => kind == .binary
  | _ => true

/-- operator chains become binary lists, and what a chain begins with nests at most so deep -/
def Task.NestsWithin (bound : Nat) : Task → Prop
  | rule _ => True
  | element e => e.joinsBinary = true
  | elements es => ∀ e ∈ es, e.joinsBinary = true
  | many _ => True
  | climb _ _ kind _ left => kind = .binary ∧ left.nesting ≤ bound

/-- **Trees nest as rules do.** With rules nested at most so deep, a tree nests at most one deeper, for its leaves; the
lists of operator chains do not count. -/
theorem Derives.nesting_le {g : Grammar} {depth : Nat} {task : Task} {ts rest : List Token} {ns : List Node}
    (hg : ∀ id, ∀ e ∈ (g.rule id).elements, e.joinsBinary = true) (h : Derives g depth task ts ns rest)
    (ht : task.NestsWithin (depth + 1)) : ∀ n ∈ ns, n.nesting ≤ depth + 1 := by
  induction h with
  | @rule _ id _ _ _ _ ih =>
    intro n hn
    rw [List.mem_singleton.1 hn]
    exact nesting_make_le (ih (hg id))
  | nil => simp
  | cons _ _ ih1 ih2 =>
    intro n hn
    rcases List.mem_append.1 hn with hn | hn
    · exact ih1 (ht _ List.mem_cons_self) n hn
    · exact ih2 (fun e he => ht e (List.mem_cons_of_mem _ he)) n hn
  | call _ ih => exact ih trivial
  | choice _ _ ih => exact ih trivial
  | skipped _ => simp
  | taken _ _ ih =>
    intro n hn
    split at hn
    · cases hn
    · exact ih trivial n hn
  | repetition _ ih => exact ih trivial
  | manyNil _ => simp
  | manyCons _ _ _ ih1 ih2 =>
    intro n hn
    split at hn
    · exact ih2 trivial n hn
    · rcases List.mem_cons.1 hn with rfl | hn
      · exact ih1 trivial n (by simp)
      · exact ih2 trivial n hn
  | token _ =>
    intro n hn
    rw [List.mem_singleton.1 hn]
    exact Nat.le_add_left 1 _
  | literal _ =>
    intro n hn
    split at hn
    · rw [List.mem_singleton.1 hn]
      exact Nat.le_add_left 1 _
    · cases hn
  | chain _ _ ih1 ih2 =>
    apply ih2
    refine ⟨?_, ih1 trivial _ List.mem_cons_self⟩
    simpa [Task.NestsWithin, Element.joinsBinary] using ht
  | climbStop _ =>
    intro n hn
    rw [List.mem_singleton.1 hn]
    exact ht.2
  | climbStep _ _ _ _ _ ih1 ih2 ih3 =>
    obtain ⟨rfl, hleft⟩ := ht
    -- the operand begins at the depth of the whole chain, and so does the right side
    have hfirst := ih1 trivial _ List.mem_cons_self
    have hright := ih2 ⟨rfl, hfirst⟩ _ List.mem_cons_self
    apply ih3
    refine ⟨rfl, Node.nesting_binary_le fun n hn => ?_⟩
    simp only [List.mem_cons, List.not_mem_nil, or_false] at hn
    rcases hn with rfl | rfl | rfl
    · exact hleft
    · exact Nat.le_add_left 1 _
    · exact hright

/-! ## Statements -/

section Statements

variable {l : Level}

theorem joinsBinary_rule (l : Level) (id : RuleId) : ∀ e ∈ (l.grammar.rule id).elements, e.joinsBinary = true := by
  rw [elements_eq]
  revert id
  exact forall_places (by cases l <;> decide +kernel) fun _ _ he => by cases he

/-- a statement nests no deeper than its rules: the rule of programs takes a level and gives none -/
theorem nesting_program_le {depth : Nat} {n : Node} {ts rest : List Token}
    (h : Derives l.grammar depth (.rule Place.program) ts [n] rest) : n.nesting ≤ depth := by
  cases h with
  | rule h =>
    rw [elements_eq] at h
    rw [build_eq]
    cases h with
    | cons hchoice hend =>
      cases hend with
      | cons hend hnil =>
        cases hend
        cases hnil
        cases hchoice with
        | choice _ hstatement =>
          obtain ⟨m, rfl⟩ := hstatement.rule_one
          exact hstatement.nesting_le (joinsBinary_rule l) trivial m (by simp)

end Statements

/-! ## What the limit bounds -/

namespace LongSum

variable (l : Level)

/-- **Sums are as high as they are long.** -/
theorem height_tree (k : Nat) : (tree k).height = k + 1 := by
  have hleaf : ∀ kind t, (Node.leaf kind t).levels (fun _ => true) = 1 := fun _ _ => by rw [Node.levels]
  induction k with
  | zero => exact hleaf _ _
  | succ k ih =>
    have htree : (tree k).levels (fun _ => true) = k + 1 := ih
    rw [tree, Node.height, Node.levels_list]
    simp [Node.levelsOfAll, hleaf, htree]

theorem statement_parses (k : Nat) :
    ∃ s', (Language.ofLevel l).parseStatement.run (ofSource (source k)) = .ok (tree k) s' := by
  obtain ⟨hclean, htokens⟩ := ofSource_eq k
  have hderives : Derives l.grammar maxNesting (.rule Place.program) (ofSource (source k)).tokens [tree k] [] := by
    rw [htokens]
    exact (program_derives k).mono (by decide)
  obtain ⟨s', hrun, -, -⟩ := parseStatement_of_derives hclean hderives
  exact ⟨s', hrun⟩

end LongSum

/-- **The limit bounds trees apart from their operators.** The lists of a parsed statement that operators have not made
stand at most so many inside each other as rules may; without operators that is the height of the whole tree. The height
of all trees has no bound. -/
theorem parsed_nesting_bounded (l : Level) :
    (∀ s n s', (Language.ofLevel l).parseStatement.run s = .ok n s' →
      n.nesting ≤ maxNesting ∧ (n.Lacks [.binary] → n.height ≤ maxNesting)) ∧
    ∀ limit, ∃ source n, parseProgram l source = .ok [n] ∧ limit < n.height := by
  constructor
  · intro s n s' h
    have hnesting : n.nesting ≤ maxNesting := nesting_program_le (parseStatement_derives h).1
    refine ⟨hnesting, fun hn => ?_⟩
    rw [Node.height_eq_nesting hn]
    exact hnesting
  · intro limit
    refine ⟨LongSum.source limit, LongSum.tree limit, LongSum.source_parses l limit, ?_⟩
    rw [LongSum.height_tree]
    exact Nat.lt_succ_self limit

/-- a long sum is within the limit where its operators do not count -/
theorem long_sum_nests_within :
    ∃ s', (Language.ofLevel .basic).parseStatement.run (ofSource (LongSum.source 1600)) = .ok (LongSum.tree 1600) s' ∧
      (LongSum.tree 1600).nesting ≤ maxNesting := by
  obtain ⟨s', hrun⟩ := LongSum.statement_parses .basic 1600
  exact ⟨s', hrun, ((parsed_nesting_bounded .basic).1 _ _ _ hrun).1⟩

/-- a statement that is higher than rules may nest: sixteen hundred operators parse -/
theorem sixteen_hundred_operators_parse :
    ∃ s', (Language.ofLevel .basic).parseStatement.run (ofSource (LongSum.source 1600)) = .ok (LongSum.tree 1600) s' ∧
      maxNesting < (LongSum.tree 1600).height := by
  obtain ⟨s', hrun⟩ := LongSum.statement_parses .basic 1600
  refine ⟨s', hrun, ?_⟩
  rw [LongSum.height_tree]
  decide

end Stone
