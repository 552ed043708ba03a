/-
Trees, values and heaps that are alike. Alike trees have the same tokens up to line numbers; where calls may be merged
(`merged`), an operand with calls that is itself the operand of calls may be one list with all the calls. Alike values
show the same text, and alike heaps have the same scopes with the same names and alike values, so nothing that a program
computes can tell them apart.

- `Node.Alike.withoutLines_eq`, `Heap.Alike.withoutLines_eq`: without merging, alike means equal up to line numbers.
- `Heap.Alike.get`, `Heap.Alike.put`, `Heap.Alike.newScope`: lookups agree, and changes keep heaps alike.
-/
import Stone.Heap
import Stone.Proofs.Forms
import Stone.Proofs.Lines

namespace Stone

/-! ## Trees -/

/-- do lists of this kind keep children as the parameters and the body of a function -/
def ListKind.makesFunction : ListKind → Bool
  | .definition => true
  | .closure => true
  | _ => false

theorem ListKind.makesFunction_of_place {kind : ListKind} {i : Nat} (h : kind.paramsPlace? = some i) :
    kind.makesFunction = true := by
  cases kind <;> first | rfl | cases h

namespace Node

/-- the same tree up to line numbers and, if `merged`, with calls on an operand with calls taken together. What becomes
the parameters of a function is not changed by that. -/
inductive Alike (merged : Bool) : Node → Node → Prop
  | leaf {kind : LeafKind} {t u : Token} : t.lexeme = u.lexeme → Alike merged (.leaf kind t) (.leaf kind u)
  | list {kind : ListKind} {ns ms : List Node} : List.Forall₂ (Alike merged) ns ms →
      (merged = true → kind.makesFunction = true → ∀ n ∈ ns, n.is .primary = false) →
      Alike merged (.list kind ns) (.list kind ms)
  | merge {a a' : Node} {calls calls' more more' : List Node} : merged = true →
      Alike merged (.list .primary (a :: calls)) (.list .primary (a' :: calls')) →
      List.Forall₂ (Alike merged) more more' →
      Alike merged (.list .primary (.list .primary (a :: calls) :: more)) (.list .primary (a' :: (calls' ++ more')))

namespace Alike

variable {merged : Bool} {n m : Node}

theorem form (h : Alike merged n m) : n.SameForm m := by
  cases h with
  | leaf ht => exact .leaf ht
  | list _ _ => exact .list
  | merge _ _ _ => exact .list

/-- trees that were not merged themselves have alike children -/
theorem children_alike (h : Alike merged n m) (hp : merged = true → n.is .primary = false) :
    List.Forall₂ (Alike merged) n.children m.children := by
  cases h with
  | leaf _ => exact .nil
  | list hc _ => exact hc
  | merge hm _ _ => exact absurd (hp hm) nofun

/-- **Without merging, alike is equal** up to line numbers. -/
theorem withoutLines_eq (h : Alike false n m) : n.withoutLines = m.withoutLines := by
  induction n using Node.induct generalizing m with
  | leaf kind t =>
    cases h with
    | leaf ht => simp [Node.withoutLines, Token.mapLine, ht]
  | list kind ns ih =>
    cases h with
    | list hc _ =>
      rw [Node.withoutLines, Node.withoutLines, mapLines_list, mapLines_list]
      refine congrArg (Node.list kind) ?_
      clear * - ih hc
      induction hc with
      | nil => rfl
      | cons hn _ ihs =>
        rw [List.map_cons, List.map_cons, ihs fun k hk => ih k (List.mem_cons_of_mem _ hk)]
        exact congrArg (· :: _) (ih _ List.mem_cons_self hn)
    | merge hm _ _ => cases hm

/-- trees that are equal up to line numbers are alike -/
theorem of_withoutLines (h : n.withoutLines = m.withoutLines) : Alike false n m := by
  induction n using Node.induct generalizing m with
  | leaf kind t =>
    cases m with
    | leaf kind' u =>
      simp only [Node.withoutLines, mapLines_leaf, Node.leaf.injEq, Token.mapLine, Token.mk.injEq, true_and] at h
      obtain ⟨rfl, ht⟩ := h
      exact .leaf ht
    | list kind' ms => simp [Node.withoutLines] at h
  | list kind ns ih =>
    cases m with
    | leaf kind' u => simp [Node.withoutLines] at h
    | list kind' ms =>
      simp only [Node.withoutLines, mapLines_list, Node.list.injEq] at h
      obtain ⟨rfl, hc⟩ := h
      refine .list ?_ nofun
      induction ns generalizing ms with
      | nil =>
        obtain rfl : ms = [] := by simpa using hc.symm
        exact .nil
      | cons n ns ihs =>
        cases ms with
        | nil => cases hc
        | cons m ms =>
          simp only [List.map_cons, List.cons.injEq] at hc
          exact .cons (ih n List.mem_cons_self hc.1)
            (ihs (fun k hk => ih k (List.mem_cons_of_mem _ hk)) ms hc.2)

end Alike

end Node

/-! ## Values -/

/-- the same function up to its trees, which are alike -/
structure Function.Alike (merged : Bool) (f g : Function) : Prop where
  id_eq : f.id = g.id
  name_eq : f.name = g.name
  scope_eq : f.scope = g.scope
  params : f.params.Alike merged g.params
  body : f.body.Alike merged g.body
  unmerged : merged = true → f.params.is .primary = false

namespace Function.Alike

variable {merged : Bool} {f g : Function}

theorem params_form (h : f.Alike merged g) : List.Forall₂ Node.SameForm f.params.children g.params.children :=
  (h.params.children_alike h.unmerged).imp fun _ _ hn => hn.form

theorem display_eq (h : f.Alike merged g) : f.display = g.display := by
  rw [display, display, paramNames, paramNames, Node.texts_eq h.params_form, h.name_eq]

end Function.Alike

namespace Value

/-- values that differ at most in the trees of functions, which are alike -/
inductive Alike (merged : Bool) : Value → Value → Prop
  | number (d : Decimal) : Alike merged (.number d) (.number d)
  | string (s : String) : Alike merged (.string s) (.string s)
  | function {f g : Function} : f.Alike merged g → Alike merged (.function f) (.function g)
  | unit : Alike merged .unit .unit

/-- the value without the line numbers in the trees of a function -/
def withoutLines : Value → Value
  | function f => function { f with params := f.params.withoutLines, body := f.body.withoutLines }
  | v => v

theorem alike_iff {merged : Bool} {a b : Value} : a.Alike merged b ↔ Value.Rel (Function.Alike merged) a b := by
  constructor
  · intro h
    cases h with
    | number d => exact .number d
    | string s => exact .string s
    | function hf => exact .function hf
    | unit => exact .unit
  · intro h
    cases h with
    | number d => exact .number d
    | string s => exact .string s
    | function hf => exact .function hf
    | unit => exact .unit

namespace Alike

variable {merged : Bool} {a b : Value}

theorem display_eq (h : Alike merged a b) : a.display = b.display := by
  cases h with
  | function hf => exact hf.display_eq
  | _ => rfl

theorem withoutLines_eq (h : Alike false a b) : a.withoutLines = b.withoutLines := by
  cases h with
  | @function f g hf =>
    obtain ⟨id, name, params, body, scope⟩ := f
    obtain ⟨id', name', params', body', scope'⟩ := g
    obtain ⟨rfl, rfl, rfl, hp, hb, -⟩ := hf
    simp [Value.withoutLines, hp.withoutLines_eq, hb.withoutLines_eq]
  | _ => rfl

end Alike

theorem map_withoutLines_eq {vs ws : List Value} (h : List.Forall₂ (Alike false) vs ws) :
    vs.map withoutLines = ws.map withoutLines := by
  induction h with
  | nil => rfl
  | cons hv _ ih => rw [List.map_cons, List.map_cons, hv.withoutLines_eq, ih]

end Value

/-! ## Scopes and heaps -/

/-- the same name with alike values -/
structure Scope.Entry (merged : Bool) (b c : String × Value) : Prop where
  name_eq : b.1 = c.1
  value : b.2.Alike merged c.2

structure Scope.Alike (merged : Bool) (s t : Scope) : Prop where
  outer_eq : s.outer = t.outer
  bindings : List.Forall₂ (Scope.Entry merged) s.bindings t.bindings

structure Heap.Alike (merged : Bool) (h k : Heap) : Prop where
  functionCount_eq : h.functionCount = k.functionCount
  scopes : List.Forall₂ (Scope.Alike merged) h.scopes.toList k.scopes.toList

/-- the scope without the line numbers in the trees of functions -/
def Scope.withoutLines (s : Scope) : Scope := { s with bindings := s.bindings.map fun b => (b.1, b.2.withoutLines) }

/-- the heap without the line numbers in the trees of functions -/
def Heap.withoutLines (h : Heap) : Heap := { h with scopes := h.scopes.map Scope.withoutLines }

section Scopes

variable {merged : Bool} {s t : Scope} {name : String}

theorem lookup_alike {bs cs : List (String × Value)} (h : List.Forall₂ (Scope.Entry merged) bs cs) :
    Option.Rel (Value.Alike merged) (bs.lookup name) (cs.lookup name) := by
  induction h with
  | nil => exact .none
  | @cons b c bs cs hbc _ ih =>
    obtain ⟨n, v⟩ := b
    obtain ⟨m, w⟩ := c
    obtain ⟨rfl, hv⟩ := hbc
    rw [List.lookup_cons, List.lookup_cons]
    cases name == n with
    | true => exact .some hv
    | false => exact ih

theorem putIn_alike {v w : Value} (hv : v.Alike merged w) {bs cs : List (String × Value)}
    (h : List.Forall₂ (Scope.Entry merged) bs cs) :
    List.Forall₂ (Scope.Entry merged) (Scope.putIn name v bs) (Scope.putIn name w cs) := by
  induction h with
  | nil => exact .cons ⟨rfl, hv⟩ .nil
  | @cons b c bs cs hbc hrest ih =>
    obtain ⟨n, a⟩ := b
    obtain ⟨m, a'⟩ := c
    obtain ⟨rfl, ha⟩ := hbc
    rw [Scope.putIn, Scope.putIn]
    simp only
    split
    · exact .cons ⟨rfl, hv⟩ hrest
    · exact .cons ⟨rfl, ha⟩ ih

theorem Scope.Alike.get (h : s.Alike merged t) : Option.Rel (Value.Alike merged) (s.get? name) (t.get? name) :=
  lookup_alike h.bindings

theorem Scope.Alike.binds_eq (h : s.Alike merged t) : s.binds name = t.binds name := isSome_of_rel h.get

theorem Scope.Alike.withoutLines_eq (h : s.Alike false t) : s.withoutLines = t.withoutLines := by
  obtain ⟨bs, outer⟩ := s
  obtain ⟨cs, outer'⟩ := t
  obtain ⟨rfl, hb⟩ := h
  simp only [Scope.withoutLines, Scope.mk.injEq, and_true]
  simp only at hb
  induction hb with
  | nil => rfl
  | cons hbc _ ih => rw [List.map_cons, List.map_cons, ih, hbc.name_eq, hbc.value.withoutLines_eq]

end Scopes

theorem forall₂_modify {α : Type} {R : α → α → Prop} {f g : α → α} (hfg : ∀ a b, R a b → R (f a) (g b))
    {as bs : List α} (h : List.Forall₂ R as bs) (i : Nat) : List.Forall₂ R (as.modify i f) (bs.modify i g) := by
  induction h generalizing i with
  | nil =>
    rw [List.modify_nil, List.modify_nil]
    exact .nil
  | cons hab hrest ih =>
    cases i with
    | zero => exact .cons (hfg _ _ hab) hrest
    | succ i => exact .cons hab (ih i)

namespace Heap.Alike

variable {merged : Bool} {h k : Heap} {s : ScopeId} {name : String}

theorem size_eq (hk : h.Alike merged k) : h.scopes.size = k.scopes.size := by
  have := hk.scopes.length_eq
  simpa using this

theorem scope (hk : h.Alike merged k) (s : ScopeId) : (h.scope s).Alike merged (k.scope s) := by
  rw [Heap.scope, Heap.scope, ← Array.getElem?_toList, ← Array.getElem?_toList]
  have hs := hk.scopes
  generalize h.scopes.toList = xs at hs
  generalize k.scopes.toList = ys at hs
  induction hs generalizing s with
  | nil => exact ⟨rfl, .nil⟩
  | cons hx _ ih =>
    cases s with
    | zero => exact hx
    | succ s => exact ih s

theorem chain_eq (hk : h.Alike merged k) (s : ScopeId) : h.chain s = k.chain s := by
  induction s using Nat.strongRecOn with
  | ind s ih =>
    have ho : h.outer? s = k.outer? s := by rw [Heap.outer?, Heap.outer?, (hk.scope s).outer_eq]
    rw [chain_step, chain_step, ho]
    cases hs : k.outer? s with
    | none => rfl
    | some o => exact congrArg (s :: ·) (ih o (outer?_lt hs))

theorem locate_eq (hk : h.Alike merged k) : h.locate? s name = k.locate? s name := by
  rw [Heap.locate?, Heap.locate?, hk.chain_eq]
  congr 1
  funext u
  exact (hk.scope u).binds_eq

theorem get (hk : h.Alike merged k) : Option.Rel (Value.Alike merged) (h.get? s name) (k.get? s name) := by
  rw [get?_eq, get?_eq, hk.locate_eq]
  cases k.locate? s name with
  | none => exact .none
  | some u => exact (hk.scope u).get

theorem putNew {v w : Value} (hk : h.Alike merged k) (hv : v.Alike merged w) :
    (h.putNew s name v).Alike merged (k.putNew s name w) := by
  refine ⟨hk.functionCount_eq, ?_⟩
  rw [Heap.putNew, Heap.putNew, Array.toList_modify, Array.toList_modify]
  exact forall₂_modify (fun s t hst => ⟨hst.outer_eq, putIn_alike hv hst.bindings⟩) hk.scopes s

theorem put {v w : Value} (hk : h.Alike merged k) (hv : v.Alike merged w) :
    (h.put s name v).Alike merged (k.put s name w) := by
  rw [Heap.put, Heap.put, hk.locate_eq]
  exact hk.putNew hv

theorem newScope (hk : h.Alike merged k) (outer : Option ScopeId) :
    (h.newScope outer).1 = (k.newScope outer).1 ∧ (h.newScope outer).2.Alike merged (k.newScope outer).2 := by
  refine ⟨hk.size_eq, hk.functionCount_eq, ?_⟩
  rw [Heap.newScope, Heap.newScope, Array.toList_push, Array.toList_push]
  exact List.rel_append hk.scopes (.cons ⟨rfl, .nil⟩ .nil)

/-- **Without merging, alike is equal** up to line numbers. -/
theorem withoutLines_eq (hk : h.Alike false k) : h.withoutLines = k.withoutLines := by
  have hs : h.scopes.map Scope.withoutLines = k.scopes.map Scope.withoutLines := by
    rw [← Array.toList_inj, Array.toList_map, Array.toList_map]
    have hl := hk.scopes
    generalize h.scopes.toList = xs at hl
    generalize k.scopes.toList = ys at hl
    induction hl with
    | nil => rfl
    | cons hx _ ih => rw [List.map_cons, List.map_cons, hx.withoutLines_eq, ih]
  rw [Heap.withoutLines, Heap.withoutLines, hs, hk.functionCount_eq]

end Heap.Alike

end Stone
