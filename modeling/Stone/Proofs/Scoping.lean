/-
Static scoping. Where a piece of code stands in the program decides which scopes it sees when it runs: one for each
function around it, from the inside out, and the global scope. That holds for code in functions that are kept in
variables, handed on and called from anywhere, because a function keeps the scope it was made in.

What is known of a heap is, for each scope, the functions around the code that runs in it. Walking these functions
before the run tells the names that the scope can ever bind.

- `evaluated_in_static_scope`: whatever source texts run in a session, whenever evaluation comes to a tree, it is in the
  scopes that the place of the tree tells, and these bind only the names that walking the program finds.
-/
import Stone.Proofs.Binders

namespace Stone

theorem Value.function?_eq_some {v : Value} {f : Function} : v.function? = some f ↔ v = .function f := by
  cases v <;> simp [Value.function?]

/-! ## Places -/

/-- the tree stands in one of the statements, inside these functions, the innermost first -/
inductive Enclosed (statements : List Node) : List Node → Node → Prop
  | top {statement n : Node} : statement ∈ statements → n.Directly statement → Enclosed statements [] n
  | inside {around : List Node} {f params body n : Node} : Enclosed statements around f →
      f.function? = some (params, body) → n.Directly body → Enclosed statements (f :: around) n

/-- the names that walking the program finds in the scope of code inside these functions -/
def ownNames (statements : List Node) : List Node → List String
  | [] => (Symbols.lookupAll statements .empty).bound
  | f :: _ => f.localNames

namespace Enclosed

variable {statements around : List Node} {n m : Node}

/-- a part that is in no function of its own has the same functions around it -/
theorem part (h : Enclosed statements around n) (hm : m.Directly n) : Enclosed statements around m := by
  cases h with
  | top hs hn => exact .top hs (hm.trans hn)
  | inside hf hb hn => exact .inside hf hb (hm.trans hn)

theorem tidy (hs : ∀ statement ∈ statements, statement.Tidy) (h : Enclosed statements around n) : n.Tidy := by
  induction h with
  | top hm hn => exact (hs _ hm).within hn.within
  | inside _ hf hn ih => exact ih.within (hn.within.trans (Node.within_function? hf).2)

theorem mono {more : List Node} (hsub : statements ⊆ more) (h : Enclosed statements around n) :
    Enclosed more around n := by
  induction h with
  | top hm hn => exact .top (hsub hm) hn
  | inside _ hf hn ih => exact .inside ih hf hn

/-- what a tree binds is among the names of its scope -/
theorem mem_ownNames {x : String} (hs : ∀ statement ∈ statements, statement.Tidy) (h : Enclosed statements around n)
    (hx : n.binding? = some x) : x ∈ ownNames statements around := by
  cases h with
  | top hm hn => exact (Symbols.mem_bound_lookupAll hs _).2 (.inr ⟨_, hm, n, hn, hx⟩)
  | inside hf hb hn => exact (mem_localNames (hf.tidy hs) hb).2 (.inr ⟨n, hn, hx⟩)

end Enclosed

theorem ownNames_mono {statements more : List Node} (hm : ∀ n ∈ more, n.Tidy) (hsub : statements ⊆ more)
    (around : List Node) : ownNames statements around ⊆ ownNames more around := by
  intro x hx
  cases around with
  | cons f around => exact hx
  | nil =>
    have hs : ∀ n ∈ statements, n.Tidy := fun n hn => hm n (hsub hn)
    rcases (Symbols.mem_bound_lookupAll hs _).1 hx with hx | ⟨n, hn, hx⟩
    · cases hx
    · exact (Symbols.mem_bound_lookupAll hm _).2 (.inr ⟨n, hsub hn, hx⟩)

/-! ## Heaps -/

/-- for each scope the functions around the code that runs in it -/
abbrev Surroundings := List (List Node)

/-- the function was made in the scope that its place in the program tells -/
def Function.AtHome (f : Function) (statements : List Node) (env : Surroundings) : Prop :=
  ∃ around n, env[f.scope]? = some around ∧ Enclosed statements around n ∧ n.function? = some (f.params, f.body)

/-- scopes lie inside each other as the functions do, bind only names that are known beforehand, and hold only functions
that were made where their place tells -/
structure Scoped (statements : List Node) (globals : ScopeId) (env : Surroundings) (h : Heap) : Prop where
  size : env.length = h.scopes.size
  outermost : ∀ {u}, env[u]? = some [] → u = globals ∧ h.outer? u = none
  inner : ∀ {u f around}, env[u]? = some (f :: around) → ∃ o, h.outer? u = some o ∧ env[o]? = some around
  bound : ∀ {u around x}, env[u]? = some around → (h.scope u).binds x = true → x ∈ ownNames statements around
  home : ∀ {u name f}, (h.scope u).get? name = some (.function f) → f.AtHome statements env

namespace Scoped

variable {statements around : List Node} {globals s u : ScopeId} {env : Surroundings} {h : Heap} {x : String}
  {v : Value}

theorem putNew (hh : Scoped statements globals env h) (hs : env[s]? = some around)
    (hx : (h.scope s).binds x = true ∨ x ∈ ownNames statements around)
    (hv : ∀ f, v.function? = some f → f.AtHome statements env) : Scoped statements globals env (h.putNew s x v) where
  size := by rw [Heap.size_putNew, hh.size]
  outermost hu := by rw [Heap.outer?_putNew]; exact hh.outermost hu
  inner hu := by rw [Heap.outer?_putNew]; exact hh.inner hu
  bound {u around' y} hu hy := by
    rw [Scope.binds, Option.isSome_iff_exists] at hy
    obtain ⟨w, hw⟩ := hy
    rcases Heap.get?_scope_putNew hw with ⟨rfl, rfl, -⟩ | hw
    · obtain rfl := Option.some.inj (hs.symm.trans hu)
      exact hx.elim (hh.bound hs) id
    · exact hh.bound hu (Option.isSome_iff_exists.2 ⟨w, hw⟩)
  home hf := by
    rcases Heap.get?_scope_putNew hf with ⟨-, -, rfl⟩ | hf
    · exact hv _ rfl
    · exact hh.home hf

theorem chain (hh : Scoped statements globals env h) (hs : env[s]? = some around) :
    ∀ u ∈ h.chain s, ∃ around, env[u]? = some around := by
  refine Heap.forall_chain ⟨around, hs⟩ ?_
  rintro u o ⟨around, hu⟩ ho
  cases around with
  | nil =>
    rw [(hh.outermost hu).2] at ho
    cases ho
  | cons f around =>
    obtain ⟨o', ho', hout⟩ := hh.inner hu
    rw [ho] at ho'
    cases ho'
    exact ⟨around, hout⟩

theorem put (hh : Scoped statements globals env h) (hs : env[s]? = some around) (hx : x ∈ ownNames statements around)
    (hv : ∀ f, v.function? = some f → f.AtHome statements env) : Scoped statements globals env (h.put s x v) := by
  rcases h.put_cases s x v with ⟨u, hu, hb, hput⟩ | hput
  · obtain ⟨around', hu'⟩ := hh.chain hs u hu
    rw [hput]
    exact hh.putNew hu' (.inl hb) hv
  · rw [hput]
    exact hh.putNew hs (.inr hx) hv

/-- **The chain of a scope follows the functions** around its code, out to the global scope. -/
theorem chain_eq (hh : Scoped statements globals env h) (hs : env[s]? = some around) :
    ∃ scopes, h.chain s = scopes ++ [globals] ∧
      List.Forall₂ (fun u f => ∀ x, (h.scope u).binds x = true → x ∈ f.localNames) scopes around ∧
      ∀ x, (h.scope globals).binds x = true → x ∈ (Symbols.lookupAll statements .empty).bound := by
  induction around generalizing s with
  | nil =>
    obtain ⟨rfl, hout⟩ := hh.outermost hs
    refine ⟨[], ?_, .nil, fun x hx => hh.bound hs hx⟩
    rw [Heap.chain_step, hout]
    rfl
  | cons f around ih =>
    obtain ⟨o, ho, hout⟩ := hh.inner hs
    obtain ⟨scopes, hchain, hscopes, hglobals⟩ := ih hout
    refine ⟨s :: scopes, ?_, .cons (fun x hx => hh.bound hs hx) hscopes, hglobals⟩
    rw [Heap.chain_step, ho, List.cons_append, ← hchain]

/-- more statements do no harm -/
theorem mono {more : List Node} (hh : Scoped statements globals env h) (hm : ∀ n ∈ more, n.Tidy)
    (hsub : statements ⊆ more) : Scoped more globals env h where
  size := hh.size
  outermost := hh.outermost
  inner := hh.inner
  bound hu hx := ownNames_mono hm hsub _ (hh.bound hu hx)
  home hf := by
    obtain ⟨around, n, hu, hn, hfun⟩ := hh.home hf
    exact ⟨around, n, hu, hn.mono hsub, hfun⟩

end Scoped

/-! ## The invariant -/

section Calls

variable {statements around : List Node} {globals : ScopeId} {env env' : Surroundings} {h : Heap} {f : Function}

/-- the second heap has all the scopes of the first one, with the same surroundings -/
def Surroundings.Extends (env env' : Surroundings) : Prop :=
  ∀ (u : ScopeId) (around : List Node), env[u]? = some around → env'[u]? = some around

theorem Function.AtHome.later (hf : f.AtHome statements env) (hl : env.Extends env') : f.AtHome statements env' := by
  obtain ⟨around, n, hs, hn, hfun⟩ := hf
  exact ⟨around, n, hl _ _ hs, hn, hfun⟩

theorem Surroundings.extends_snoc (env : Surroundings) (around : List Node) : env.Extends (env ++ [around]) := by
  intro u around' hu
  rwa [List.getElem?_append_left (List.getElem?_eq_some_iff.1 hu).1]

/-- a scope is the last one or was there before -/
theorem Surroundings.getElem?_snoc {u : ScopeId} {around' : List Node} (hu : (env ++ [around])[u]? = some around') :
    u = env.length ∧ around' = around ∨ u < env.length ∧ env[u]? = some around' := by
  by_cases hlt : u < env.length
  · rw [List.getElem?_append_left hlt] at hu
    exact .inr ⟨hlt, hu⟩
  · rw [List.getElem?_append_right (not_lt.1 hlt), List.getElem?_singleton] at hu
    split at hu
    · exact .inl ⟨Nat.le_antisymm (Nat.sub_eq_zero_iff_le.1 ‹_›) (not_lt.1 hlt), (Option.some.inj hu).symm⟩
    · cases hu

/-- a call opens a scope with one function more around it -/
theorem Scoped.newScope (hh : Scoped statements globals env h) (hs : env[f.scope]? = some around) (n : Node) :
    Scoped statements globals (env ++ [n :: around]) (h.newScope (some f.scope)).2 where
  size := by
    rw [List.length_append, Heap.size_newScope, hh.size]
    rfl
  outermost {u} hu := by
    rcases Surroundings.getElem?_snoc hu with ⟨-, h⟩ | ⟨hlt, hu⟩
    · cases h
    · rw [Heap.outer?_newScope_ne (hh.size ▸ hlt.ne)]
      exact hh.outermost hu
  inner {u g around'} hu := by
    rcases Surroundings.getElem?_snoc hu with ⟨rfl, heq⟩ | ⟨hlt, hu⟩
    · cases heq
      have hlt : f.scope < h.scopes.size := hh.size ▸ (List.getElem?_eq_some_iff.1 hs).1
      refine ⟨f.scope, ?_, env.extends_snoc _ _ _ hs⟩
      rw [hh.size, Heap.outer?_newScope_self, Option.filter_some, if_pos (decide_eq_true hlt)]
    · obtain ⟨o, ho, hout⟩ := hh.inner hu
      rw [Heap.outer?_newScope_ne (hh.size ▸ hlt.ne)]
      exact ⟨o, ho, env.extends_snoc _ _ _ hout⟩
  bound {u around' x} hu hx := by
    rcases Surroundings.getElem?_snoc hu with ⟨rfl, -⟩ | ⟨hlt, hu⟩
    · rw [hh.size, Heap.scope_newScope_self] at hx
      cases hx
    · rw [Heap.scope_newScope_ne (hh.size ▸ hlt.ne)] at hx
      exact hh.bound hu hx
  home {u name g} hg := by
    by_cases hu : u = h.scopes.size
    · rw [hu, Heap.scope_newScope_self] at hg
      cases hg
    · rw [Heap.scope_newScope_ne hu] at hg
      exact (hh.home hg).later (env.extends_snoc _)

end Calls

/-- code runs in the scopes that its place tells -/
def scoping (statements : List Node) (globals : ScopeId) (hs : ∀ statement ∈ statements, statement.Tidy) :
    Invariant where
  World := Surroundings
  Later := Surroundings.Extends
  heap env h := Scoped statements globals env h
  value env v := ∀ f, v.function? = some f → f.AtHome statements env
  tree env n s := ∃ around, env[s]? = some around ∧ Enclosed statements around n
  activation env f s := ∃ around n, env[s]? = some (n :: around) ∧ Enclosed statements around n ∧
    n.function? = some (f.params, f.body)
  refl _ _ _ h := h
  trans h h' u around hu := h' u around (h u around hu)
  value_later hl hv f hf := (hv f hf).later hl
  tree_later hl := fun ⟨around, hs, hn⟩ => ⟨around, hl _ _ hs, hn⟩
  activation_later hl := fun ⟨around, n, hs, hn, hf⟩ => ⟨around, n, hl _ _ hs, hn, hf⟩
  data h f hf := by rw [h] at hf; cases hf
  part := fun ⟨around, hs, hn⟩ hk hm => ⟨around, hs, hn.part (.inside hk hm .here)⟩
  found hh _ hv f hf := by
    obtain ⟨u, -, hb⟩ := Heap.get?_cases hv
    rw [Value.function?_eq_some.1 hf] at hb
    exact hh.home hb
  assigned hh := fun ⟨_, hu, hn⟩ ha hv => hh.put hu (hn.mem_ownNames hs ha) hv
  made hh := fun ⟨around, hu, hn⟩ hf =>
    ⟨fun f hf' => by cases hf'; exact ⟨around, _, hu, hn, hf⟩, ⟨hh.size, hh.outermost, hh.inner, hh.bound, hh.home⟩⟩
  defined hh := fun ⟨_, hu, hn⟩ hv t ht => hh.putNew hu (.inr (hn.mem_ownNames hs (by rw [Node.binding?, ht]; rfl))) hv
  called {env h f} hh hf := by
    obtain ⟨around, n, hu, hn, hfun⟩ := hf f rfl
    refine ⟨env ++ [n :: around], env.extends_snoc _, hh.newScope hu n, around, n, ?_, hn, hfun⟩
    rw [← hh.size, List.getElem?_concat_length]
  parameter hh := fun ⟨_, _, hu, hn, hfun⟩ hx hv =>
    hh.putNew hu (.inr ((mem_localNames (hn.tidy hs) hfun).2 (.inl hx))) hv
  body := fun ⟨around, n, hu, hn, hfun⟩ => ⟨n :: around, hu, .inside hn hfun .here⟩

/-! ## Sessions -/

namespace Session

/-- the session after these statements, whether they fail or not -/
def after (s : Session) (ns : List Node) : Session := ns.foldl (fun s n => (s.evalNode n).2) s

/-- the statements that are evaluated when a stream runs: those up to the first error, without the empty ones -/
def streamStatements (l : Language) (s : Session) : Nat → TokenStream → List Node
  | 0, _ => []
  | budget + 1, stream =>
    match Language.atEnd.run stream with
    | .ok false stream =>
      match l.parseStatement.run stream with
      | .ok n stream =>
        if n.is .empty then streamStatements l s budget stream
        else
          match s.evalNode n with
          | (.ok _, s') => n :: streamStatements l s' budget stream
          | (.error _, _) => [n]
      | .error _ _ => []
    | _ => []

/-- the statements that are evaluated when a source text runs -/
def sourceStatements (s : Session) (source : String) : List Node :=
  let stream := TokenStream.ofSource source
  streamStatements (.ofLevel s.level) s (stream.size + 1) stream

/-- the statements that are evaluated when source texts run one after the other, whether they fail or not -/
def sourcesStatements (s : Session) : List String → List Node
  | [] => []
  | source :: more => s.sourceStatements source ++ (s.evalSource source).2.sourcesStatements more

theorem runStream_after (l : Language) (s : Session) (done : List Value) (budget : Nat) (stream : TokenStream) :
    (runStream l s done budget stream).2 = s.after (streamStatements l s budget stream) := by
  induction budget generalizing s done stream with
  | zero => rfl
  | succ budget ih =>
    rw [runStream, streamStatements]
    cases Language.atEnd.run stream with
    | error e s₁ => rfl
    | ok b s₁ =>
      cases b with
      | true => rfl
      | false =>
        simp only
        cases l.parseStatement.run s₁ with
        | error e s₂ => rfl
        | ok n s₂ =>
          simp only
          split
          · exact ih s done s₂
          · rcases hr : s.evalNode n with ⟨e | v, s'⟩
            · simp [after, hr]
            · simp only
              rw [ih, after, after, List.foldl_cons, hr]

/-- running a source text is evaluating its statements -/
theorem evalSource_after (s : Session) (source : String) :
    (s.evalSource source).2 = s.after (s.sourceStatements source) :=
  runStream_after _ _ _ _ _

/-- only statements that fit are evaluated, and no empty ones; what the tokens of the stream are, theirs are -/
theorem streamStatements_fits {l : Level} {Q : Token → Prop} {s : Session} {budget : Nat} {stream : TokenStream}
    (hQ : ∀ t ∈ stream.tokens, Q t) :
    ∀ n ∈ streamStatements (.ofLevel l) s budget stream, Fits l Q .program n ∧ n.is .empty = false := by
  induction budget generalizing s stream with
  | zero => exact nofun
  | succ budget ih =>
    rw [streamStatements]
    cases ha : Language.atEnd.run stream with
    | error e s₁ => exact nofun
    | ok b s₁ =>
      have hQ₁ : ∀ t ∈ s₁.tokens, Q t := by rwa [(atEnd_run ha).2.1]
      cases b with
      | true => exact nofun
      | false =>
        simp only
        cases hp : (Language.ofLevel l).parseStatement.run s₁ with
        | error e s₂ => exact nofun
        | ok n s₂ =>
          have hQ₂ : ∀ t ∈ s₂.tokens, Q t := fun t ht => hQ₁ t ((parseStatement_derives hp).1.suffix.subset ht)
          simp only
          split
          · exact ih hQ₂
          · rename_i hne
            have hn : Fits l Q .program n ∧ n.is .empty = false := ⟨parseStatement_fits hQ₁ hp, by simpa using hne⟩
            rcases s.evalNode n with ⟨e | v, s'⟩
            · exact List.forall_mem_singleton.2 hn
            · exact List.forall_mem_cons.2 ⟨hn, ih hQ₂⟩

/-- only statements that are well formed throughout are evaluated -/
theorem streamStatements_tidy (l : Level) (s : Session) (budget : Nat) (stream : TokenStream) :
    ∀ n ∈ streamStatements (.ofLevel l) s budget stream, n.Tidy := by
  intro n hn
  obtain ⟨hfits, hne⟩ := streamStatements_fits (Q := fun _ => True) (fun _ _ => trivial) n hn
  rcases hfits.program_tidy with rfl | htidy
  · cases hne
  · exact htidy

theorem sourcesStatements_tidy (s : Session) (sources : List String) : ∀ n ∈ s.sourcesStatements sources, n.Tidy := by
  induction sources generalizing s with
  | nil => exact nofun
  | cons source more ih => exact List.forall_mem_append.2 ⟨streamStatements_tidy _ _ _ _, ih _⟩

/-- the scopes of the session are as these statements tell -/
structure InScope (s : Session) (statements : List Node) : Prop where
  tidy : ∀ n ∈ statements, n.Tidy
  surroundings : ∃ env : Surroundings, env[s.globals]? = some [] ∧ Scoped statements s.globals env s.heap

theorem new_inScope (l : Level) : (Session.new l).InScope [] := by
  refine ⟨nofun, [[]], rfl, rfl, ?_, ?_, ?_, ?_⟩
  · intro u hu
    cases u with
    | zero => exact ⟨rfl, rfl⟩
    | succ u => cases hu
  · intro u f around hu
    cases u <;> cases hu
  · intro u around x hu hx
    cases u <;> cases hu
    cases hx
  · intro u name f hf
    cases u <;> cases hf

variable {s : Session} {statements : List Node} {n : Node}

theorem InScope.mono (hs : s.InScope statements) {more : List Node} (hm : ∀ n ∈ more, n.Tidy)
    (hsub : statements ⊆ more) : s.InScope more := by
  obtain ⟨env, hg, hh⟩ := hs.surroundings
  exact ⟨hm, env, hg, hh.mono hm hsub⟩

/-- one more statement that is evaluated -/
theorem InScope.evalNode (hs : s.InScope statements) (hn : n ∈ statements) : (s.evalNode n).2.InScope statements := by
  obtain ⟨env, hg, hh⟩ := hs.surroundings
  have hkept := (scoping statements s.globals hs.tidy).evaluate_keeps (w := env) (n := n) (s := s.globals)
    ⟨[], hg, .top hn .here⟩ maxRounds maxEvaluation s.heap hh
  rw [Session.evalNode]
  cases hr : (evaluate maxRounds maxEvaluation n s.globals).run s.heap with
  | ok v h' =>
    rw [hr] at hkept
    obtain ⟨env', hl, hh', -⟩ := hkept
    exact ⟨hs.tidy, env', hl _ _ hg, hh'⟩
  | error e h' =>
    rw [hr] at hkept
    obtain ⟨-, env', hl, hh'⟩ := hkept
    exact ⟨hs.tidy, env', hl _ _ hg, hh'⟩

/-- **Statements keep the session in scope**, one after the other. -/
theorem InScope.after (hs : s.InScope statements) {ns : List Node} (hns : ∀ n ∈ ns, n.Tidy) :
    (s.after ns).InScope (statements ++ ns) := by
  induction ns generalizing s statements with
  | nil => rwa [List.append_nil]
  | cons n ns ih =>
    obtain ⟨hn, hns⟩ := List.forall_mem_cons.1 hns
    have hmore : ∀ m ∈ statements ++ [n], m.Tidy :=
      List.forall_mem_append.2 ⟨hs.tidy, List.forall_mem_singleton.2 hn⟩
    have hnext : (s.evalNode n).2.InScope (statements ++ [n]) :=
      (hs.mono hmore (List.subset_append_left _ _)).evalNode (List.mem_append_right _ List.mem_cons_self)
    have hlast := ih hnext hns
    rwa [List.append_assoc] at hlast

/-- before a statement of source texts that run in a new session -/
theorem inScope_before {l : Level} {sources : List String} {before more : List Node}
    (hrun : (Session.new l).sourcesStatements sources = before ++ n :: more) :
    ((Session.new l).after before).InScope (before ++ [n]) := by
  have htidy := (Session.new l).sourcesStatements_tidy sources
  rw [hrun] at htidy
  have hnow : ∀ m ∈ before ++ [n], m.Tidy := by
    intro m hm
    refine htidy m ?_
    rcases List.mem_append.1 hm with hm | hm
    · exact List.mem_append_left _ hm
    · obtain rfl := List.mem_singleton.1 hm
      exact List.mem_append_right _ List.mem_cons_self
  exact ((Session.new_inScope l).after fun m hm => hnow m (List.mem_append_left _ hm)).mono hnow
    (List.subset_append_left _ _)

end Session

/-- **Code runs in the scopes that its place tells.** Source texts run one after the other in a new session, whether
they fail or not. Whenever, in one of the statements that are evaluated, evaluation comes to a tree, that tree stands in
one of the statements up to now; the chain of its scope has one scope for each function around it, the innermost first,
and then the global scope. The scope of a function binds only names that walking the function finds, and the global
scope only those that walking the statements up to now finds. -/
theorem evaluated_in_static_scope (l : Level) (sources : List String) (before more : List Node) (n m : Node)
    (u : ScopeId) (k : Heap) (hrun : (Session.new l).sourcesStatements sources = before ++ n :: more)
    (henter : Enters maxRounds maxEvaluation n ((Session.new l).after before).globals
      ((Session.new l).after before).heap m u k) :
    ∃ around, Enclosed (before ++ [n]) around m ∧
      ∃ scopes, k.chain u = scopes ++ [((Session.new l).after before).globals] ∧
        List.Forall₂ (fun v f => ∀ x, (k.scope v).binds x = true → x ∈ f.localNames) scopes around ∧
        ∀ x, (k.scope ((Session.new l).after before).globals).binds x = true →
          x ∈ (Symbols.lookupAll (before ++ [n]) .empty).bound := by
  have hs := Session.inScope_before hrun
  obtain ⟨env, hg, hh⟩ := hs.surroundings
  obtain ⟨env', hh', around, hu, hm⟩ := (scoping (before ++ [n]) _ hs.tidy).enters_inv (w := env) hh
    ⟨[], hg, .top (List.mem_append_right _ List.mem_cons_self) .here⟩ henter
  exact ⟨around, hm, Scoped.chain_eq hh' hu⟩

/-- a function from one source text that is called by the next: its parameter is read in a scope of its own, inside the
global one -/
theorem parameter_in_static_scope :
    let x : Node := .leaf .name ⟨1, .identifier "x"⟩
    let one : Node := .leaf .number ⟨1, .number .one⟩
    let params : Node := .list .parameters [x]
    let body : Node := .list .block [x]
    let before : List Node :=
      [.list .binary
        [.leaf .name ⟨1, .identifier "f"⟩, .leaf .mark ⟨1, .identifier "="⟩, .list .closure [params, body]]]
    let n : Node := .list .primary [.leaf .name ⟨1, .identifier "f"⟩, .list .arguments [one]]
    let k : Heap :=
      ⟨#[⟨[("f", .function ⟨0, none, params, body, 0⟩)], none⟩, ⟨[("x", .number .one)], some 0⟩], 1⟩
    (Session.new .closures).sourcesStatements ["f = fun (x) \x7b x \x7d", "f(1)"] = before ++ [n] ∧
      ∃ around, Enclosed (before ++ [n]) around x ∧
        ∃ scopes, k.chain 1 = scopes ++ [((Session.new .closures).after before).globals] ∧
          List.Forall₂ (fun v f => ∀ y, (k.scope v).binds y = true → y ∈ f.localNames) scopes around ∧
          ∀ y, (k.scope ((Session.new .closures).after before).globals).binds y = true →
            y ∈ (Symbols.lookupAll (before ++ [n]) .empty).bound := by
  intro x one params body before n k
  let f : Value := .function ⟨0, none, params, body, 0⟩
  let h : Heap := ⟨#[⟨[("f", f)], none⟩], 1⟩
  let h' : Heap := ⟨#[⟨[("f", f)], none⟩, ⟨[], some 0⟩], 1⟩
  have hrun : (Session.new .closures).sourcesStatements ["f = fun (x) \x7b x \x7d", "f(1)"] = before ++ [n] := by cbv
  have henter : Enters maxRounds maxEvaluation n ((Session.new .closures).after before).globals
      ((Session.new .closures).after before).heap x 1 k := by
    have hheap : ((Session.new .closures).after before).heap = h := by cbv
    have hglobals : ((Session.new .closures).after before).globals = 0 := by cbv
    have hname : (evalLeaf .name ⟨1, .identifier "f"⟩ 0).run h = .ok f h := by cbv
    rw [hheap, hglobals]
    intro awaited alarm ha
    -- the function, then its argument in the scope of the caller, then its body in the new scope
    refine stopped_inside (d := 2999) (stopped_bind (stopped_leaf (d := 2998) hname) ?_)
    refine stopped_first (stopped_bind (.inl rfl) (stopped_bind (k := k) (a := ()) ?_ ?_))
    · have hone : (evaluateUntil awaited alarm maxRounds 2999 one 0).run h' = .ok (.number .one) h' ∨
          Stopped alarm (evaluateUntil awaited alarm maxRounds 2999 one 0) h' := stopped_leaf (d := 2998) rfl
      rcases hone with hone | hone
      · refine .inl ?_
        show (bindArguments _ 0 1 [("x", one)] : Evaluation Unit).run h' = _
        rw [bindArguments, EStateM.run_bind, hone]
        rfl
      · exact .inr (stopped_first hone)
    · exact stopped_inside (d := 2998) (stopped_first (stopped_here (d := 2997) ha))
  exact ⟨hrun, evaluated_in_static_scope .closures _ before [] n x 1 k hrun henter⟩

end Stone
