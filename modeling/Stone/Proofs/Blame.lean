/-
Where errors are blamed. An error of evaluation has the line of the tree that failed, and that is the line of the first
token that the tree has kept. So it is a line of the source. A tree need not have kept any token: of a closure without
parameters, with nothing in its block, no token is left, and none of its sign when it is negated. Errors of such trees
have no line. They are the only ones: operations keep their operators, names are tokens, and wherever an empty block
is refused because it is too deep, a condition or a function beside it was refused before.

- `Invariant.raised_by`: every error is raised by a tree that evaluation has come to in order.
- `Fits.blamed`: what the errors of a tree of the language are blamed on.
- `error_names_line_or_closure`: the errors of source texts.
-/
import Stone.Proofs.Account
import Stone.Proofs.Machine
import Stone.Proofs.Scoping

namespace Stone

open TokenStream Evaluation

/-! ## The tree that fails -/

/-- the first action is stopped by the alarm, or both do the same and raise only the permitted errors -/
def Watched (alarm : Stop EvalError) (permitted : EvalError → Prop) {α : Type} (p q : Evaluation α) : Prop :=
  ∀ h, Stopped alarm p h ∨ p.run h = q.run h ∧ ∀ e k, q.run h = .error (.raised e) k → permitted e

section Watched

variable {alarm : Stop EvalError} {permitted : EvalError → Prop} {α β : Type} {p q : Evaluation α}
  {f g : α → Evaluation β}

theorem Watched.bind (hp : Watched alarm permitted p q) (hf : ∀ a, Watched alarm permitted (f a) (g a)) :
    Watched alarm permitted (p >>= f) (q >>= g) := by
  intro h
  rcases hp h with hs | ⟨hsame, hraised⟩
  · exact .inl (stopped_first hs)
  · rw [Stopped, EStateM.run_bind, EStateM.run_bind, hsame]
    cases hq : q.run h with
    | error e k =>
      refine .inr ⟨rfl, fun e' k' he => ?_⟩
      cases he
      exact hraised e' k hq
    | ok a k => exact hf a k

theorem watched : Correspondence (m := Evaluation) (fun p q => Watched alarm permitted p q) permitted where
  pure _ _ := .inr ⟨rfl, nofun⟩
  bind := .bind
  step hq h := by
    refine .inr ⟨rfl, fun e k hr => ?_⟩
    obtain ⟨error, heq, herror⟩ := hq h _ k hr
    cases heq
    exact herror

/-- one tree that is watched: its parts are, and its own errors are permitted -/
theorem watched_node {eval eval' : Node → ScopeId → Evaluation Value} {rounds : Nat} {n : Node} {s : ScopeId}
    (heval : ∀ n s, Watched alarm permitted (eval n s) (eval' n s)) (hn : ∀ e, n.Fails e → permitted e) :
    Watched alarm permitted (evalNode rounds eval n s) (evalNode rounds eval' n s) := by
  exact watched.node heval hn fun _ => ⟨rfl, fun h => .inr ⟨rfl, nofun⟩⟩

/-- **Errors are those of the trees that are not waited for**, if no alarm is raised. -/
theorem evaluateUntil_watched {awaited : Node → ScopeId → Heap → Bool} {rounds : Nat}
    (hquiet : ∀ n s h, awaited n s h = false → ∀ e, n.Fails e → permitted e) (depth : Nat) (n : Node) (s : ScopeId) :
    Watched alarm permitted (evaluateUntil awaited alarm rounds (depth + 1) n s) (evaluate rounds (depth + 1) n s) := by
  induction depth generalizing n s with
  | zero =>
    intro h
    by_cases ha : awaited n s h = true
    · exact .inl (stopped_here ha)
    · have hparts : ∀ m u, Watched alarm (fun _ => True) (evaluateUntil awaited alarm rounds 0 m u)
          (evaluate rounds 0 m u) := by
        intro m u k
        rw [Stopped, run_evaluateUntil_zero]
        split
        · exact .inl ⟨k, rfl⟩
        · exact .inr ⟨rfl, fun _ _ _ => trivial⟩
      rw [Stopped, run_evaluateUntil, if_neg ha]
      rcases watched_node hparts (fun _ _ => trivial) h with hs | ⟨hsame, -⟩
      · exact .inl hs
      · exact .inr ⟨hsame, fun e k hr => hquiet n s h (by simpa using ha) e (fails_at_limit hr)⟩
  | succ depth ih =>
    intro h
    by_cases ha : awaited n s h = true
    · exact .inl (stopped_here ha)
    · rw [Stopped, run_evaluateUntil, if_neg ha]
      exact watched_node ih (hquiet n s h (by simpa using ha)) h

end Watched

/-- **Every error is raised by a tree in order**, one that evaluation has come to. -/
theorem Invariant.raised_by (I : Invariant) {w : I.World} {n : Node} {s : ScopeId} {h k : Heap} {rounds depth : Nat}
    {e : EvalError} (hh : I.heap w h) (ht : I.tree w n s)
    (hr : (evaluate rounds (depth + 1) n s).run h = .error (.raised e) k) :
    ∃ w' m u, I.tree w' m u ∧ m.Fails e := by
  classical
  -- wait for what is not in order: no alarm is raised, so only trees in order have failed
  let awaited : Node → ScopeId → Heap → Bool := fun m u k => decide ¬ ∃ w', I.heap w' k ∧ I.tree w' m u
  have hkept : I.KeptEval (evaluateUntil awaited alarm rounds (depth + 1)) :=
    evaluateUntil_kept (fun w' m u k hk hm => decide_eq_false (not_not.2 ⟨w', hk, hm⟩)) rounds (depth + 1)
  have hquiet : ∀ m u k, awaited m u k = false → ∀ e, m.Fails e → ∃ w' m u, I.tree w' m u ∧ m.Fails e := by
    intro m u k ha e he
    obtain ⟨w', -, hm⟩ := not_not.1 (of_decide_eq_false ha)
    exact ⟨w', m, u, hm, he⟩
  have hwatched : Watched alarm (fun e => ∃ w' m u, I.tree w' m u ∧ m.Fails e)
      (evaluateUntil awaited alarm rounds (depth + 1) n s) (evaluate rounds (depth + 1) n s) :=
    evaluateUntil_watched hquiet depth n s
  rcases hwatched h with ⟨k', hs⟩ | ⟨-, hraised⟩
  · have hrun := hkept w n s ht h hh
    rw [hs] at hrun
    exact absurd rfl hrun.1
  · exact hraised e k hr

/-! ## Lines of trees -/

namespace Node

theorem mem_leavesAll {t : Token} {ns : List Node} : t ∈ leavesAll ns ↔ ∃ n ∈ ns, t ∈ n.leaves := by
  induction ns with
  | nil => simp
  | cons n ns ih => simp [ih]

theorem forall_leaves {P : Token → Prop} {kind : ListKind} {ns : List Node} (h : ∀ n ∈ ns, ∀ t ∈ n.leaves, P t) :
    ∀ t ∈ (list kind ns).leaves, P t := by
  intro t ht
  rw [leaves_list] at ht
  obtain ⟨n, hn, ht⟩ := mem_leavesAll.1 ht
  exact h n hn t ht

/-- a tree is on the line of its first leaf that is on a line -/
theorem line?_eq (n : Node) : n.line? = (n.leaves.find? fun t => !t.isInputEnd).map Token.line := by
  induction n using Node.induct with
  | leaf kind t => cases ht : t.isInputEnd <;> simp [line?, ht]
  | list kind children ih =>
    rw [line?, leaves_list]
    induction children with
    | nil => simp [firstLine?]
    | cons n ns ihs =>
      obtain ⟨hn, hns⟩ := List.forall_mem_cons.1 ih
      rw [firstLine?, leavesAll_cons, List.find?_append, hn, ihs hns]
      cases n.leaves.find? fun t => !t.isInputEnd <;> rfl

/-- a closure of which no token is left stands in the tree -/
def HasBareClosure (n : Node) : Prop := ∃ m : Node, m.Within n ∧ m.is .closure = true ∧ m.leaves = []

theorem HasBareClosure.child {kind : ListKind} {children : List Node} {n : Node} (h : n.HasBareClosure)
    (hn : n ∈ children) : (list kind children).HasBareClosure := by
  obtain ⟨c, hc, hkind, hleaves⟩ := h
  exact ⟨c, .inside hn hc, hkind, hleaves⟩

end Node

/-- does the role ask for something that is written -/
def Role.isFilled : Role → Bool
  | .value _ => true
  | .statement => true
  | _ => false

/-- may the error be one of a tree that has kept no token -/
def EvalError.isBare : EvalError → Bool
  | badType op _ _ => op == "-"
  | arity _ _ _ => true
  | notAFunction _ _ => true
  | tooDeep _ => true
  | _ => false

namespace Fits

variable {l : Level} {Q : Token → Prop} {r : Role} {n : Node}

/-- the leaves are tokens with the property, and on a line -/
theorem leaf (h : Fits l Q r n) : ∀ t ∈ n.leaves, Q t ∧ t.isInputEnd = false := by
  replace h := h.leafwise
  induction h with
  | @leaf kind t ht =>
    obtain ⟨hq, htakes⟩ := ht
    intro u hu
    rw [Node.leaves_leaf, List.mem_singleton] at hu
    subst hu
    refine ⟨hq, ?_⟩
    obtain ⟨line, x⟩ := u
    -- no kind of leaf takes the end of input
    cases x <;> cases kind <;> first | rfl | cases htakes
  | list _ ih => exact Node.forall_leaves ih

/-- a tree is on the line of one of its tokens, or it has kept none -/
theorem line_cases (h : Fits l Q r n) : (∃ t, Q t ∧ n.line? = some t.line) ∨ n.line? = none ∧ n.leaves = [] := by
  rw [Node.line?_eq]
  cases hfind : n.leaves.find? fun t => !t.isInputEnd with
  | some t => exact .inl ⟨t, (h.leaf t (List.mem_of_find?_eq_some hfind)).1, rfl⟩
  | none =>
    refine .inr ⟨rfl, List.eq_nil_iff_forall_not_mem.2 fun t ht => ?_⟩
    have hend := List.find?_eq_none.1 hfind t ht
    simp [(h.leaf t ht).2] at hend

/-- **What is written and has kept no token has a bare closure in it.** -/
theorem bare (h : Fits l Q r n) (hr : r.isFilled = true) (hn : n.leaves = []) :
    l.hasClosures = true ∧ n.HasBareClosure := by
  induction h with
  | number _ => simp at hn
  | string _ => simp at hn
  | name _ _ _ => simp at hn
  | binary _ _ _ _ _ _ => simp at hn
  | negative _ ih =>
    obtain ⟨hl, hbare⟩ := ih rfl (by simpa using hn)
    exact ⟨hl, hbare.child List.mem_cons_self⟩
  | primary _ _ _ _ ih _ =>
    rw [Node.leaves_list, Node.leavesAll_cons, List.append_eq_nil_iff] at hn
    obtain ⟨hl, hbare⟩ := ih rfl hn.1
    exact ⟨hl, hbare.child List.mem_cons_self⟩
  | closure hl _ _ _ _ => exact ⟨hl, _, .here, rfl, hn⟩
  | simple _ ih => exact ih rfl hn
  | conditional _ _ ih _ =>
    rw [Node.leaves_list, Node.leavesAll_cons, List.append_eq_nil_iff] at hn
    obtain ⟨hl, hbare⟩ := ih rfl hn.1
    exact ⟨hl, hbare.child List.mem_cons_self⟩
  | otherwise _ _ _ ih _ _ =>
    rw [Node.leaves_list, Node.leavesAll_cons, List.append_eq_nil_iff] at hn
    obtain ⟨hl, hbare⟩ := ih rfl hn.1
    exact ⟨hl, hbare.child List.mem_cons_self⟩
  | loop _ _ ih _ =>
    rw [Node.leaves_list, Node.leavesAll_cons, List.append_eq_nil_iff] at hn
    obtain ⟨hl, hbare⟩ := ih rfl hn.1
    exact ⟨hl, hbare.child List.mem_cons_self⟩
  | _ => cases hr

/-- a child of a tree of the language is one as well, or a mark -/
theorem child {kind : ListKind} {children : List Node} (h : Fits l Q r (.list kind children)) :
    ∀ n ∈ children, (∃ r', Fits l Q r' n) ∨ ∃ t, n = .leaf .mark t := by
  generalize hm : Node.list kind children = m at h
  induction h with
  | simple _ ih => exact ih hm
  | statement _ ih => exact ih hm
  | number _ | string _ | name _ _ _ | parameter _ _ => cases hm
  | nothing => cases hm; exact nofun
  | arguments hns => cases hm; exact fun n hn => .inl ⟨_, hns n hn⟩
  | parameters hns => cases hm; exact fun n hn => .inl ⟨_, hns n hn⟩
  | block hns => cases hm; exact fun n hn => .inl ⟨_, hns n hn⟩
  | negative ho => cases hm; exact List.forall_mem_singleton.2 (.inl ⟨_, ho⟩)
  | primary _ ho _ hcs => cases hm; exact List.forall_mem_cons.2 ⟨.inl ⟨_, ho⟩, fun c hc => .inl ⟨_, hcs c hc⟩⟩
  | closure _ hp hb | conditional hp hb | loop hp hb =>
    cases hm
    simp only [List.forall_mem_cons]
    exact ⟨.inl ⟨_, hp⟩, .inl ⟨_, hb⟩, nofun⟩
  | otherwise hc hb ho =>
    cases hm
    simp only [List.forall_mem_cons]
    exact ⟨.inl ⟨_, hc⟩, .inl ⟨_, hb⟩, .inl ⟨_, ho⟩, nofun⟩
  | binary ha hb _ _ =>
    cases hm
    simp only [List.forall_mem_cons]
    exact ⟨.inl ⟨_, ha⟩, .inr ⟨_, rfl⟩, .inl ⟨_, hb⟩, nofun⟩
  | definition _ _ _ hp hb =>
    cases hm
    simp only [List.forall_mem_cons]
    exact ⟨.inr ⟨_, rfl⟩, .inl ⟨_, hp⟩, .inl ⟨_, hb⟩, nofun⟩

theorem within {m : Node} (h : Fits l Q r n) (hm : m.Within n) : (∃ r', Fits l Q r' m) ∨ ∃ t, m = .leaf .mark t := by
  induction hm generalizing r with
  | here => exact .inl ⟨r, h⟩
  | inside hn hm ih =>
    rcases h.child _ hn with ⟨r', h'⟩ | ⟨t, rfl⟩
    · exact ih h'
    · cases hm
      exact .inr ⟨t, rfl⟩

/-- on the line of a token with the property, or on none, for want of a token in a closure -/
def Blamed (l : Level) (Q : Token → Prop) (n : Node) (line : Option Nat) : Prop :=
  (∃ t, Q t ∧ line = some t.line) ∨ line = none ∧ l.hasClosures = true ∧ n.HasBareClosure

/-- what is written -/
theorem blamed_written (h : Fits l Q r n) (hr : r.isFilled = true) : Blamed l Q n n.line? := by
  rcases h.line_cases with hline | ⟨hnone, hleaves⟩
  · exact .inl hline
  · exact .inr ⟨hnone, h.bare hr hleaves⟩

theorem Blamed.child {kind : ListKind} {children : List Node} {line : Option Nat} (h : Blamed l Q n line)
    (hn : n ∈ children) : Blamed l Q (.list kind children) line :=
  h.imp_right fun ⟨hnone, hl, hbare⟩ => ⟨hnone, hl, hbare.child hn⟩

/-- a part that is refused -/
theorem blamed_part {kind : ListKind} {children : List Node} (h : Fits l Q r n) (hr : r.isFilled = true)
    (hn : n ∈ children) {e : EvalError} (he : e = .tooDeep n.line?) :
    Blamed l Q (.list kind children) e.line? ∧ (e.line? = none → e.isBare = true) := by
  subst he
  exact ⟨(h.blamed_written hr).child hn, fun _ => rfl⟩

/-- **What a tree of the language is blamed for** is on a line, or the tree has a bare closure in it. -/
theorem blamed {e : EvalError} (h : Fits l Q r n) (hf : n.Fails e) (he : e.isMalformed = false) :
    Blamed l Q n e.line? ∧ (e.line? = none → e.isBare = true) := by
  have malformed : ∀ {P : Prop}, e.isMalformed = true → P := fun h => absurd (he.symm.trans h) nofun
  have unbound : ∀ {t : Token} {n : Node}, Q t → e = .undefinedName t.text (some t.line) →
      Blamed l Q n e.line? ∧ (e.line? = none → e.isBare = true) := by
    rintro t n hq rfl
    exact ⟨.inl ⟨t, hq, rfl⟩, nofun⟩
  induction h with
  | simple _ ih => exact ih hf
  | statement _ ih => exact ih hf
  | number _ | string _ => cases hf with | malformed h => exact malformed h
  | name hq _ _ | parameter hq _ =>
    cases hf with
    | malformed h => exact malformed h
    | unbound => exact unbound hq rfl
  | binary ha hb hq hp =>
    cases hf with
    | malformed h => exact malformed h
    | deepFirst hkind => simp at hkind
    | operation hline =>
      -- its operator is a token of every operation
      rcases (Fits.binary (b := false) ha hb hq hp).line_cases with ⟨t, ht, hsome⟩ | ⟨-, hleaves⟩
      · rw [hline, hsome]
        exact ⟨.inl ⟨t, ht, rfl⟩, nofun⟩
      · simp at hleaves
    | deepPart _ hpart =>
      simp only [List.mem_cons, List.not_mem_nil, or_false] at hpart
      rcases hpart with rfl | rfl | rfl
      · exact ha.blamed_part rfl (by simp) rfl
      · exact ⟨.inl ⟨_, hq, rfl⟩, nofun⟩
      · exact hb.blamed_part rfl (by simp) rfl
  | negative ho =>
    cases hf with
    | malformed h => exact malformed h
    | negated => exact ⟨(Fits.negative (b := true) ho).blamed_written rfl, fun _ => rfl⟩
    | deepFirst _ => exact ho.blamed_part rfl List.mem_cons_self rfl
    | deepPart hkind _ => simp at hkind
  | primary hl ho hne hcs =>
    cases hf with
    | malformed h => exact malformed h
    | arity => exact ⟨(Fits.primary hl ho hne hcs).blamed_written rfl, fun _ => rfl⟩
    | notAFunction => exact ⟨(Fits.primary hl ho hne hcs).blamed_written rfl, fun _ => rfl⟩
    | deepFirst _ => exact ho.blamed_part rfl List.mem_cons_self rfl
    | deepPart hkind _ => simp at hkind
  | conditional hc _ | otherwise hc _ _ | loop hc _ =>
    cases hf with
    | malformed h => exact malformed h
    | deepFirst _ => exact hc.blamed_part rfl List.mem_cons_self rfl
    | deepPart hkind _ => simp at hkind
  | block hns =>
    cases hf with
    | malformed h => exact malformed h
    | deepFirst hkind => simp at hkind
    | deepPart _ hpart => exact (hns _ hpart).blamed_part rfl hpart rfl
  | closure _ _ _ | definition _ _ _ _ _ =>
    cases hf with
    | malformed h => exact malformed h
    | deepFirst hkind => simp at hkind
    | deepPart hkind _ => simp at hkind
  | arguments _ | parameters _ =>
    cases hf with
    | malformed h => exact malformed h
    | deepFirst hkind => simp at hkind
    | deepPart hkind _ => simp at hkind
  | nothing =>
    cases hf with
    | malformed h => exact malformed h
    | deepPart hkind _ => simp at hkind

end Fits

/-! ## Source texts -/

/-- the tokens of a line are on it -/
theorem line_of_scanLine {line : Nat} {cs : List Char} {ts : List Token} (h : scanLine line cs = .ok ts) :
    ∀ t ∈ ts, t.line = line := by
  have hsame : scanLine line cs = .ok (ts.map (Token.mapLine fun _ => line)) := scanRest_mapLine (fun _ => line) _ h
  rw [h] at hsame
  intro t ht
  rw [Except.ok.inj hsame] at ht
  obtain ⟨u, -, rfl⟩ := List.mem_map.1 ht
  rfl

theorem line_of_scanAll {texts : List (List Char)} {first : Nat} :
    ∀ line ∈ scanAll first texts, ∀ ts, line = .ok ts → ∀ t ∈ ts, first ≤ t.line ∧ t.line < first + texts.length := by
  induction texts generalizing first with
  | nil => exact nofun
  | cons cs more ih =>
    intro line hline ts hts t ht
    rw [List.length_cons]
    rcases List.mem_cons.1 hline with rfl | hline
    · rw [line_of_scanLine hts t ht]
      omega
    · have := ih line hline ts hts t ht
      omega

/-- **The tokens of a text are on its lines.** -/
theorem line_of_ofSource (source : String) :
    ∀ t ∈ (ofSource source).tokens, 1 ≤ t.line ∧ t.line ≤ (Text.lines source.toList).length := by
  apply forall_mem_sound
  intro line hline ts hts t ht
  have := line_of_scanAll line hline ts hts t ht
  omega

theorem Enclosed.within {statements around : List Node} {n : Node} (h : Enclosed statements around n) :
    ∃ statement ∈ statements, n.Within statement := by
  induction h with
  | top hs hn => exact ⟨_, hs, hn.within⟩
  | inside _ hf hn ih =>
    obtain ⟨statement, hs, hwithin⟩ := ih
    exact ⟨statement, hs, (hn.within.trans (Node.within_function? hf).2).trans hwithin⟩

namespace Session

variable {s : Session} {n : Node} {e : EvalError}

theorem evalNode_raised (h : (s.evalNode n).1 = .error (.raised (.eval e))) :
    ∃ k, (evaluate maxRounds maxEvaluation n s.globals).run s.heap = .error (.raised e) k := by
  rw [evalNode] at h
  cases hr : (evaluate maxRounds maxEvaluation n s.globals).run s.heap with
  | ok v k => rw [hr] at h; cases h
  | error e' k =>
    rw [hr] at h
    cases e' with
    | endless => cases h
    | raised e' => cases h; exact ⟨k, rfl⟩

/-- an error of evaluation is one of the last statement that was evaluated -/
theorem runStream_raised {l : Language} {done : List Value} {budget : Nat} {stream : TokenStream}
    (h : (runStream l s done budget stream).1 = .error (.raised (.eval e))) :
    ∃ before n, streamStatements l s budget stream = before ++ [n] ∧
      ((s.after before).evalNode n).1 = .error (.raised (.eval e)) := by
  have hparse : ∀ {e' : Stop ParseError},
      (.error (e'.map .parse) : Except (Stop Fault) (List Value)) ≠ .error (.raised (.eval e)) := by
    intro e' h
    cases e' <;> cases h
  induction budget generalizing s done stream with
  | zero => cases h
  | succ budget ih =>
    rw [runStream] at h
    rw [streamStatements]
    cases ha : Language.atEnd.run stream with
    | error e' s₁ => rw [ha] at h; exact absurd h hparse
    | ok b s₁ =>
      rw [ha] at h
      cases b with
      | true => cases h
      | false =>
        simp only at h ⊢
        cases hp : l.parseStatement.run s₁ with
        | error e' s₂ => rw [hp] at h; exact absurd h hparse
        | ok n s₂ =>
          rw [hp] at h
          simp only at h ⊢
          by_cases hempty : n.is .empty = true
          · rw [if_pos hempty] at h ⊢
            exact ih h
          · rw [if_neg hempty] at h ⊢
            rcases hr : s.evalNode n with ⟨e' | v, s'⟩
            · rw [hr] at h
              cases h
              exact ⟨[], n, rfl, by rw [after, List.foldl_nil, hr]⟩
            · rw [hr] at h
              obtain ⟨before, m, hstatements, hm⟩ := ih h
              refine ⟨n :: before, m, by simp only [hstatements, List.cons_append], ?_⟩
              rwa [after, List.foldl_cons, hr]

end Session

/-- **An error of evaluation names a line of the source, or a bare closure is to blame**: one that stands in the tree
that failed, somewhere in an evaluated statement. -/
theorem error_names_line_or_closure (l : Level) (source : String) (e : EvalError)
    (h : ((Session.new l).evalSource source).1 = .error (.raised (.eval e))) :
    (∃ line, e.line? = some line ∧ 1 ≤ line ∧ line ≤ (Text.lines source.toList).length) ∨
      e.line? = none ∧ l = .closures ∧ e.isBare = true ∧
        ∃ n ∈ (Session.new l).sourceStatements source, ∃ m : Node, m.Within n ∧ m.Fails e ∧ m.HasBareClosure := by
  have hsafe : e.isMalformed = false := by
    have := (Session.evalSource_safe (Session.new_sound l) source).1
    rwa [h] at this
  obtain ⟨before, n, hstatements, hn⟩ := Session.runStream_raised h
  have hsource : (Session.new l).sourceStatements source = before ++ [n] := hstatements
  obtain ⟨k, hrun⟩ := Session.evalNode_raised hn
  -- the tree that failed stands in one of the statements
  have hsources : (Session.new l).sourcesStatements [source] = before ++ n :: [] := by
    rw [Session.sourcesStatements, hsource, Session.sourcesStatements, List.append_nil]
  have hs := Session.inScope_before hsources
  obtain ⟨env, hg, hh⟩ := hs.surroundings
  obtain ⟨env', m, u, ⟨around, -, hm⟩, hfails⟩ := (scoping (before ++ [n]) _ hs.tidy).raised_by (w := env) hh
    ⟨[], hg, .top (List.mem_append_right _ List.mem_cons_self) .here⟩ hrun
  obtain ⟨statement, hmem, hwithin⟩ := hm.within
  rw [← hsource] at hmem
  have hfits := (Session.streamStatements_fits (line_of_ofSource source) statement hmem).1
  rcases hfits.within hwithin with ⟨r, hr⟩ | ⟨t, rfl⟩
  · obtain ⟨hblamed, hbare⟩ := hr.blamed hfails hsafe
    rcases hblamed with ⟨t, ht, hline⟩ | ⟨hnone, hl, hclosure⟩
    · exact .inl ⟨t.line, hline, ht⟩
    · refine .inr ⟨hnone, ?_, hbare hnone, statement, hmem, m, hwithin, hfails, hclosure⟩
      cases l with
      | closures => rfl
      | _ => cases hl
  · cases hfails with
    | malformed hmalformed =>
      rw [hmalformed] at hsafe
      cases hsafe

/-- a division on the second of two lines names its line -/
theorem division_names_line :
    let source := "1 + 1\n2 / 0"
    let e := EvalError.divisionByZero (some 2)
    ((Session.new .basic).evalSource source).1 = .error (.raised (.eval e)) ∧
      ((∃ line, e.line? = some line ∧ 1 ≤ line ∧ line ≤ (Text.lines source.toList).length) ∨
        e.line? = none ∧ Level.basic = .closures ∧ e.isBare = true ∧
          ∃ n ∈ (Session.new .basic).sourceStatements source, ∃ m : Node, m.Within n ∧ m.Fails e ∧ m.HasBareClosure) := by
  intro source e
  have hrun : ((Session.new .basic).evalSource source).1 = .error (.raised (.eval e)) := by cbv
  exact ⟨hrun, error_names_line_or_closure .basic source e hrun⟩

/-- a bare closure under a sign: the error names no line -/
theorem not_every_error_names_line :
    ¬ ∀ (l : Level) (source : String) (e : EvalError),
      ((Session.new l).evalSource source).1 = .error (.raised (.eval e)) →
        ∃ line, e.line? = some line ∧ 1 ≤ line ∧ line ≤ (Text.lines source.toList).length := by
  intro h
  have hrun : ((Session.new .closures).evalSource "-fun () \x7b\x7d").1 =
      .error (.raised (.eval (.badType "-" "function" none))) := by cbv
  obtain ⟨line, hline, -⟩ := h .closures _ _ hrun
  cases hline

end Stone
