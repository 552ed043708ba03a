/-
The names that a tree binds in the scope it is evaluated in. A function has a scope of its own, so what stands in its
body does not count for the scope around it.

- `mem_bound_lookup`: in well-formed trees, walking a tree before the run finds all the names that it binds, and no
  others.
- `mem_localNames`: for a function these are its parameters and what its body binds.
-/
import Stone.Proofs.Invariant
import Stone.Proofs.WellFormed

namespace Stone

namespace Node

/-- the first tree is the second or stands in it with no function around it there -/
inductive Directly (m : Node) : Node → Prop
  | here : Directly m m
  | inside {kind : ListKind} {children : List Node} {n : Node} :
      kind.makesFunction = false → n ∈ children → Directly m n → Directly m (.list kind children)

theorem Directly.trans {a b c : Node} (h : a.Directly b) (hb : b.Directly c) : a.Directly c := by
  induction hb with
  | here => exact h
  | inside hk hn _ ih => exact .inside hk hn ih

theorem Within.trans {a b c : Node} (h : a.Within b) (hb : b.Within c) : a.Within c := by
  induction hb with
  | here => exact h
  | inside hn _ ih => exact .inside hn ih

theorem Directly.within {m n : Node} (h : m.Directly n) : m.Within n := by
  induction h with
  | here => exact .here
  | inside _ hn _ ih => exact .inside hn ih

theorem Tidy.within {m n : Node} (hn : n.Tidy) (h : m.Within n) : m.Tidy := fun _ hk => hn _ (hk.trans h)

section Lacks

variable {kinds : List ListKind} {kind : ListKind} {children : List Node}

theorem Lacks.within {m n : Node} (hn : n.Lacks kinds) (hm : m.Within n) : m.Lacks kinds :=
  fun _ hk => hn _ (hk.trans hm)

theorem lacks_leaf (k : LeafKind) (t : Token) : (leaf k t).Lacks kinds := by
  intro m hm kind _
  cases hm
  rfl

theorem lacks_list : (list kind children).Lacks kinds ↔ kind ∉ kinds ∧ ∀ n ∈ children, n.Lacks kinds := by
  constructor
  · intro h
    refine ⟨fun hk => ?_, fun n hn => h.within (.inside hn .here)⟩
    have hself := h _ .here kind hk
    simp [is] at hself
  · rintro ⟨hk, hc⟩ m hm k hmem
    cases hm with
    | here => simpa [is] using fun heq : kind = k => hk (heq ▸ hmem)
    | inside hn hm => exact hc _ hn m hm k hmem

end Lacks

/-- the body of a function stands in the tree that makes it -/
theorem within_function? {n params body : Node} (h : n.function? = some (params, body)) :
    params.Within n ∧ body.Within n := by
  unfold function? at h
  split at h
  · cases h
    exact ⟨.inside (by simp) .here, .inside (by simp) .here⟩
  · cases h
    exact ⟨.inside (by simp) .here, .inside (by simp) .here⟩
  · cases h

/-- the name that a tree itself binds where it is evaluated -/
def binding? : Node → Option String
  | list .binary (target :: mark :: _) => Symbols.assigned? target mark
  | list .definition (name :: _) => name.token?.map Token.text
  | _ => none

/-- the tree binds the name in the scope that it is evaluated in -/
def Binds (n : Node) (x : String) : Prop := ∃ m : Node, m.Directly n ∧ m.binding? = some x

/-- the names that walking a function finds to be bound in its scope -/
def localNames (n : Node) : List String :=
  match n.function? with
  | some (params, body) => (Symbols.lookup body (.ofParameters params)).bound
  | none => []

theorem wellFormed_binary {children : List Node} (h : (list .binary children).wellFormed = true) :
    ∃ target op value, children = [target, leaf .mark op, value] := by
  unfold wellFormed at h
  split at h <;> simp_all

theorem wellFormed_definition {children : List Node} (h : (list .definition children).wellFormed = true) :
    ∃ name params body, children = [leaf .mark name, params, body] := by
  unfold wellFormed at h
  split at h <;> simp_all

theorem wellFormed_closure {children : List Node} (h : (list .closure children).wellFormed = true) :
    ∃ params body, children = [params, body] := by
  unfold wellFormed at h
  split at h <;> simp_all

variable {x : String}

theorem binds_leaf {kind : LeafKind} {t : Token} : ¬ (leaf kind t).Binds x := by
  rintro ⟨m, hm, hx⟩
  cases hm
  cases hx

theorem binds_list {kind : ListKind} {children : List Node} :
    (list kind children).Binds x ↔
      (list kind children).binding? = some x ∨ kind.makesFunction = false ∧ ∃ n ∈ children, n.Binds x := by
  constructor
  · rintro ⟨m, hm, hx⟩
    cases hm with
    | here => exact .inl hx
    | inside hk hn hm => exact .inr ⟨hk, _, hn, m, hm, hx⟩
  · rintro (hx | ⟨hk, n, hn, m, hm, hx⟩)
    · exact ⟨_, .here, hx⟩
    · exact ⟨m, .inside hk hn hm, hx⟩

end Node

/-! ## Walking a tree -/

namespace Symbols

variable {σ : Symbols} {x y : String}

theorem mem_bound_define : x ∈ (σ.define y).bound ↔ x = y ∨ x ∈ σ.bound := by
  rw [define]
  split
  · rename_i h
    have hy : y ∈ σ.bound := by simpa [isBound] using h
    exact ⟨.inr, by rintro (rfl | hx) <;> assumption⟩
  · exact List.mem_cons

theorem bound_reference (σ : Symbols) (name : String) (line : Option Nat) :
    (σ.reference name line).bound = σ.bound := by
  rw [reference]
  split <;> rfl

theorem bound_defer (σ inner : Symbols) : (σ.defer inner).bound = σ.bound := rfl

theorem mem_bound_ofParameters {params : Node} :
    x ∈ (ofParameters params).bound ↔ x ∈ params.children.filterMap fun p => p.token?.map Token.text := by
  have hfold : ∀ (ts : List Token) (σ : Symbols),
      x ∈ (ts.foldl (fun s t => s.define t.text) σ).bound ↔ x ∈ ts.map Token.text ∨ x ∈ σ.bound := by
    intro ts
    induction ts with
    | nil => simp
    | cons t ts ih =>
      intro σ
      rw [List.foldl_cons, ih, mem_bound_define, List.map_cons, List.mem_cons]
      tauto
  rw [ofParameters, hfold, List.map_filterMap]
  exact or_iff_left (by simp [empty])

/-- the target of an assignment is a leaf -/
theorem not_binds_target {target mark : Node} {name : String} (h : assigned? target mark = some name) :
    ¬ target.Binds x := by
  rw [assigned?] at h
  split at h
  · split at h
    · cases target with
      | leaf _ _ => exact Node.binds_leaf
      | list _ _ => cases h
    · cases h
  · cases h

theorem mem_bound_lookupAll_of {ns : List Node}
    (h : ∀ n ∈ ns, ∀ σ : Symbols, x ∈ (lookup n σ).bound ↔ x ∈ σ.bound ∨ n.Binds x) (σ : Symbols) :
    x ∈ (lookupAll ns σ).bound ↔ x ∈ σ.bound ∨ ∃ n ∈ ns, n.Binds x := by
  induction ns generalizing σ with
  | nil => simp [lookupAll]
  | cons n more ih =>
    obtain ⟨hn, hm⟩ := List.forall_mem_cons.1 h
    rw [lookupAll, ih hm, hn]
    simp [or_assoc]

/-- a list of a kind that neither binds a name nor makes a function -/
theorem mem_bound_lookup_list {kind : ListKind} {children : List Node}
    (hlookup : lookup (.list kind children) σ = lookupAll children σ) (hb : (Node.list kind children).binding? = none)
    (hk : kind.makesFunction = false)
    (hall : x ∈ (lookupAll children σ).bound ↔ x ∈ σ.bound ∨ ∃ n ∈ children, n.Binds x) :
    x ∈ (lookup (.list kind children) σ).bound ↔ x ∈ σ.bound ∨ (Node.list kind children).Binds x := by
  rw [hlookup, hall, Node.binds_list, hb, hk]
  simp

/-- **Walking a tree finds the names that it binds**, and no others. -/
theorem mem_bound_lookup {n : Node} (hn : n.Tidy) (σ : Symbols) : x ∈ (lookup n σ).bound ↔ x ∈ σ.bound ∨ n.Binds x := by
  induction n using Node.induct generalizing σ with
  | leaf kind t =>
    rw [or_iff_left Node.binds_leaf]
    cases kind with
    | name => rw [lookup, bound_reference]
    | _ => rw [lookup]; exact nofun
  | list kind children ih =>
    have hwell := (hn _ .here).1
    have hch : ∀ n ∈ children, ∀ σ : Symbols, x ∈ (lookup n σ).bound ↔ x ∈ σ.bound ∨ n.Binds x :=
      fun n hm σ => ih n hm (hn.child hm) σ
    have hall := mem_bound_lookupAll_of hch σ
    cases kind with
    | binary =>
      obtain ⟨target, op, value, rfl⟩ := Node.wellFormed_binary hwell
      rw [Node.binds_list, Node.binding?, lookup]
      cases ha : assigned? target (.leaf .mark op) with
      | some name =>
        rw [mem_bound_define, hch value (by simp)]
        simp only [Option.some.injEq, ListKind.makesFunction, List.mem_cons, List.not_mem_nil, or_false,
          exists_eq_or_imp, not_binds_target ha, Node.binds_leaf, ↓existsAndEq, true_and, false_or]
        tauto
      | none =>
        rw [lookupAll, hch value (by simp), hch _ (by simp), hch target (by simp)]
        simp [ListKind.makesFunction, or_assoc]
    | definition =>
      obtain ⟨name, params, body, rfl⟩ := Node.wellFormed_definition hwell
      rw [Node.binds_list, lookup, bound_defer, defineLeaf, Node.token?, mem_bound_define, Node.binding?]
      simp [Node.token?, ListKind.makesFunction, or_comm, eq_comm]
    | closure =>
      obtain ⟨params, body, rfl⟩ := Node.wellFormed_closure hwell
      rw [Node.binds_list, lookup, bound_defer, Node.binding?]
      · simp [ListKind.makesFunction]
      all_goals nofun
    | _ => exact mem_bound_lookup_list (by rw [lookup] <;> nofun) rfl rfl hall

theorem mem_bound_lookupAll {ns : List Node} (hns : ∀ n ∈ ns, n.Tidy) (σ : Symbols) :
    x ∈ (lookupAll ns σ).bound ↔ x ∈ σ.bound ∨ ∃ n ∈ ns, n.Binds x :=
  mem_bound_lookupAll_of (fun n hn σ => mem_bound_lookup (hns n hn) σ) σ

end Symbols

/-- **The names of a function** are its parameters and what its body binds outside other functions. -/
theorem mem_localNames {n params body : Node} {x : String} (hn : n.Tidy) (hf : n.function? = some (params, body)) :
    x ∈ n.localNames ↔ x ∈ (params.children.filterMap fun p => p.token?.map Token.text) ∨ body.Binds x := by
  have hbody : body.Tidy := hn.within (Node.within_function? hf).2
  rw [Node.localNames, hf]
  simp only
  rw [Symbols.mem_bound_lookup hbody, Symbols.mem_bound_ofParameters]

end Stone
