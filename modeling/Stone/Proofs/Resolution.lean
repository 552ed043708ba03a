/-
What the check before the run leaves open, told without running it. A walk over trees comes upon reads, names that are
bound, and functions, in an order; `Node.outline` is that order, with the scopes one inside the other. A read is open if
its own scope has not bound the name before it and no scope around it binds the name at all (`Usage.isOpen`). The walk
decides this piecemeal: reads are handed outward from function to function, and some are dropped on the way.

- `lookupAll_record`: a walk over trees does what their outline says.
- `recordOne_open`, `record_open`: what a scope has recorded is what is open in it.
- `unresolved_lookupAll`: after a walk exactly the open reads are left, each once.
- `checkProgram_clean_iff`: so the check passes the programs without open reads, and no others.
-/
import Stone.Proofs.Prediction

namespace Stone

/-! ## Outlines -/

/-- what a walk comes upon in a scope -/
inductive Mention where
  | read (reference : Reference)
  | bind (name : String)
  /-- a function, by what is in its scope -/
  | function (scope : List Mention)

namespace Mention

/-- the name that is bound here -/
def name? : Mention → Option String
  | bind name => some name
  | _ => none

/-- the names that are bound in a scope; functions in it have scopes of their own -/
def binds (scope : List Mention) : List String := scope.filterMap name?

/-- a leaf as a place where its text is bound -/
def ofLeaf? (n : Node) : Option Mention := n.token?.map fun t => bind t.text

/-- a function, from the tree of its parameters and from what is in its body -/
def ofFunction (params : Option Node) (body : Option (List Mention)) : Mention :=
  function ((params.elim [] Node.children).filterMap ofLeaf? ++ body.getD [])

@[simp] theorem binds_append (before after : List Mention) : binds (before ++ after) = binds before ++ binds after :=
  List.filterMap_append

@[simp] theorem binds_read (r : Reference) (more : List Mention) : binds (read r :: more) = binds more := rfl

@[simp] theorem binds_bind (name : String) (more : List Mention) : binds (bind name :: more) = name :: binds more := rfl

end Mention

namespace Node

/-- the name that the children of a binary expression bind -/
def assignedName? : List Node → Option String
  | target :: mark :: _ => Symbols.assigned? target mark
  | _ => none

/-- what is come upon in a list, from its children and what is in each of them: the target of an assignment after the
value, the name of a definition before the function -/
def listOutline (kind : ListKind) (children : List Node) (parts : List (List Mention)) : List Mention :=
  match kind with
  | .binary =>
    match assignedName? children with
    | some name => parts.getD 2 [] ++ [.bind name]
    | none => parts.flatten
  | .definition => (children.head?.bind Mention.ofLeaf?).toList ++ [Mention.ofFunction children[1]? parts[2]?]
  | .closure => [Mention.ofFunction children[0]? parts[1]?]
  | _ => parts.flatten

mutual

/-- what a walk over a tree comes upon, in order -/
def outline : Node → List Mention
  | leaf .name t => [.read ⟨t.text, some t.line⟩]
  | leaf _ _ => []
  | list kind children => listOutline kind children (outlineOfAll children)

def outlineOfAll : List Node → List (List Mention)
  | [] => []
  | n :: more => n.outline :: outlineOfAll more

end

theorem outlineOfAll_eq (ns : List Node) : outlineOfAll ns = ns.map outline := by
  induction ns with
  | nil => rfl
  | cons n more ih => rw [outlineOfAll, ih, List.map_cons]

theorem outline_list (kind : ListKind) (children : List Node) :
    (list kind children).outline = listOutline kind children (children.map outline) := by
  rw [outline, outlineOfAll_eq]

/-- what a walk over trees comes upon, one tree after the other -/
def outlineAll (ns : List Node) : List Mention := (ns.map outline).flatten

end Node

/-! ## Open reads -/

/-- a read where it stands -/
structure Usage where
  reference : Reference
  /-- what comes before it in its own scope -/
  before : List Mention
  /-- the scopes around its own, whole, from the inside out -/
  outer : List (List Mention)

/-- none of the scopes binds the name -/
def Reference.isFree (r : Reference) (scopes : List (List Mention)) : Bool :=
  scopes.all fun scope => !(Mention.binds scope).contains r.name

namespace Usage

mutual

/-- the reads in what is left of a scope, those in its functions included -/
def among (outer : List (List Mention)) (before : List Mention) : List Mention → List Usage
  | [] => []
  | m :: more => atMention outer before more m ++ among outer (before ++ [m]) more

/-- the reads in one place of a scope -/
def atMention (outer : List (List Mention)) (before after : List Mention) : Mention → List Usage
  | .read r => [⟨r, before, outer⟩]
  | .bind _ => []
  | .function scope => among ((before ++ .function scope :: after) :: outer) [] scope

end

/-- the reads in trees that are walked over one after the other -/
def ofTrees (ns : List Node) : List Usage := among [] [] (Node.outlineAll ns)

/-- the scope of the read has not bound the name before it, and no scope around binds the name anywhere -/
def isOpen (r : Usage) : Bool := r.reference.isFree (r.before :: r.outer)

end Usage

/-! ## Walks -/

namespace Symbols

mutual

/-- records what is come upon in a scope -/
def record : List Mention → Symbols → Symbols
  | [], s => s
  | m :: more, s => record more (recordOne m s)

def recordOne : Mention → Symbols → Symbols
  | .read r, s => s.reference r.name r.line
  | .bind name, s => s.define name
  | .function scope, s => s.defer (record scope empty)

end

theorem record_append (before after : List Mention) (s : Symbols) :
    record (before ++ after) s = record after (record before s) := by
  induction before generalizing s with
  | nil => rfl
  | cons m before ih => exact ih (recordOne m s)

theorem lookupAll_record_of {ns : List Node} (h : ∀ n ∈ ns, ∀ s, lookup n s = record n.outline s) (s : Symbols) :
    lookupAll ns s = record (ns.map Node.outline).flatten s := by
  induction ns generalizing s with
  | nil => rw [lookupAll]; rfl
  | cons n more ih =>
    obtain ⟨hn, hmore⟩ := List.forall_mem_cons.1 h
    rw [lookupAll, hn, ih hmore, List.map_cons, List.flatten_cons, record_append]

theorem defineLeaf_record (n : Node) (s : Symbols) : s.defineLeaf n = record (Mention.ofLeaf? n).toList s := by
  cases n <;> rfl

theorem ofParameters_record (params : Node) :
    ofParameters params = record (params.children.filterMap Mention.ofLeaf?) empty := by
  have hfold : ∀ (ns : List Node) (s : Symbols),
      (ns.filterMap Node.token?).foldl (fun s t => s.define t.text) s = record (ns.filterMap Mention.ofLeaf?) s := by
    intro ns
    induction ns with
    | nil => intro s; rfl
    | cons n more ih =>
      intro s
      cases n with
      | leaf _ t => exact ih (s.define t.text)
      | list _ _ => exact ih s
  exact hfold params.children empty

theorem recordOne_function {body : Node} (h : ∀ s, lookup body s = record body.outline s) (params : Node)
    (s : Symbols) : recordOne (Mention.ofFunction (some params) (some body.outline)) s =
      s.defer (lookup body (ofParameters params)) := by
  rw [h, ofParameters_record, ← record_append]
  rfl

/-- binding names leaves no read open -/
theorem unresolved_binds (ns : List Node) (s : Symbols) (h : s.free = [] ∧ s.deferred = []) :
    (record (ns.filterMap Mention.ofLeaf?) s).unresolved = [] := by
  induction ns generalizing s with
  | nil => simp [record, unresolved, h]
  | cons n more ih =>
    cases n with
    | leaf _ t => exact ih _ ⟨(free_define s t.text).trans h.1, (deferred_define s t.text).trans h.2⟩
    | list _ _ => exact ih s h

/-- a function without a body hands nothing on -/
theorem recordOne_bodiless (params : Option Node) (s : Symbols) : recordOne (Mention.ofFunction params none) s = s := by
  rw [Mention.ofFunction, Option.getD_none, List.append_nil, recordOne, defer, unresolved_binds _ _ ⟨rfl, rfl⟩,
    List.append_nil]

section Kinds

variable {children : List Node}

theorem lookup_binary_record (ih : ∀ n ∈ children, ∀ s, lookup n s = record n.outline s) (s : Symbols) :
    lookup (.list .binary children) s = record (Node.listOutline .binary children (children.map Node.outline)) s := by
  have hall := lookupAll_record_of ih s
  rcases children with _ | ⟨target, _ | ⟨mark, _ | ⟨value, more⟩⟩⟩
  · rw [lookup]
    · exact hall
    all_goals simp
  · rw [lookup]
    · exact hall
    all_goals simp
  · rw [lookup, Node.listOutline, Node.assignedName?]
    cases assigned? target mark with
    | none => exact hall
    | some name => rfl
  · rw [lookup, Node.listOutline, Node.assignedName?]
    cases assigned? target mark with
    | none => exact hall
    | some name =>
      -- the value comes first, and the target and the mark are no reads
      simp only
      rw [ih value (by simp), record_append]
      rfl

theorem lookup_definition_record (ih : ∀ n ∈ children, ∀ s, lookup n s = record n.outline s) (s : Symbols) :
    lookup (.list .definition children) s =
      record (Node.listOutline .definition children (children.map Node.outline)) s := by
  rw [Node.listOutline, record_append]
  rcases children with _ | ⟨name, _ | ⟨params, _ | ⟨body, more⟩⟩⟩
  · rw [lookup]
    exact (recordOne_bodiless none s).symm
  · rw [lookup, defineLeaf_record]
    · exact (recordOne_bodiless none _).symm
    · simp
  · rw [lookup, defineLeaf_record]
    · exact (recordOne_bodiless (some params) _).symm
    · simp
  · rw [lookup, defineLeaf_record, ← recordOne_function (ih body (by simp))]
    rfl

theorem lookup_closure_record (ih : ∀ n ∈ children, ∀ s, lookup n s = record n.outline s) (s : Symbols) :
    lookup (.list .closure children) s = record (Node.listOutline .closure children (children.map Node.outline)) s := by
  rcases children with _ | ⟨params, _ | ⟨body, more⟩⟩
  · rw [lookup]
    · exact (recordOne_bodiless none s).symm
    · simp
  · rw [lookup]
    · exact (recordOne_bodiless (some params) s).symm
    · simp
  · rw [lookup, ← recordOne_function (ih body (by simp))]
    rfl

end Kinds

/-- **A walk does what the outline says.** -/
theorem lookup_record (n : Node) (s : Symbols) : lookup n s = record n.outline s := by
  induction n using Node.induct generalizing s with
  | leaf kind t =>
    cases kind with
    | name => rw [lookup]; rfl
    | _ => rw [lookup_data (by decide)]; rfl
  | list kind children ih =>
    rw [Node.outline_list]
    cases kind with
    | binary => exact lookup_binary_record ih s
    | definition => exact lookup_definition_record ih s
    | closure => exact lookup_closure_record ih s
    | _ =>
      rw [lookup]
      · exact lookupAll_record_of ih s
      all_goals simp

/-- trees one after the other -/
theorem lookupAll_record (ns : List Node) (s : Symbols) : lookupAll ns s = record (Node.outlineAll ns) s :=
  lookupAll_record_of (fun n _ => lookup_record n) s

theorem isBound_record (scope : List Mention) (s : Symbols) (x : String) :
    (record scope s).isBound x = (s.isBound x || (Mention.binds scope).contains x) := by
  induction scope generalizing s with
  | nil => simp [record, Mention.binds]
  | cons m more ih =>
    rw [record, ih]
    cases m with
    | read r =>
      rw [recordOne, Mention.binds_read, isBound, bound_reference]
      rfl
    | bind name =>
      rw [recordOne, isBound_define, Mention.binds_bind, List.contains_cons]
      cases x == name <;> simp
    | function scope => rfl

/-- the recorded reads that are open if their scope turns out to be the whole one -/
def pending (outer : List (List Mention)) (whole : List Mention) (s : Symbols) : List Reference :=
  s.free.filter (·.isFree outer) ++ s.deferred.filter (·.isFree (whole :: outer))

/-- what a scope hands outward, as far as no scope around binds it -/
theorem unresolved_filter (outer : List (List Mention)) (scope : List Mention) :
    (record scope empty).unresolved.filter (·.isFree outer) = pending outer scope (record scope empty) := by
  have hbound : ∀ r : Reference,
      (r.isFree outer && !(record scope empty).isBound r.name) = r.isFree (scope :: outer) := by
    intro r
    rw [isBound_record, Bool.and_comm]
    rfl
  rw [unresolved, pending, List.filter_append, List.filter_filter]
  exact congrArg _ (List.filter_congr fun r _ => hbound r)

end Symbols

/-- the open ones among reads, as references -/
def Usage.opens (rs : List Usage) : List Reference := (rs.filter isOpen).map reference

@[simp] theorem Usage.opens_append (rs qs : List Usage) : opens (rs ++ qs) = opens rs ++ opens qs := by
  simp [opens]

namespace Symbols

theorem isOpen_eq (r : Reference) (before : List Mention) (outer : List (List Mention)) (s : Symbols)
    (hs : ∀ x, s.isBound x = (Mention.binds before).contains x) :
    (⟨r, before, outer⟩ : Usage).isOpen = (!s.isBound r.name && r.isFree outer) := by
  rw [hs]
  rfl

theorem isBound_recordOne (m : Mention) (s : Symbols) (x : String) :
    (recordOne m s).isBound x = (s.isBound x || (Mention.binds [m]).contains x) := isBound_record [m] s x

mutual

/-- what is recorded in one place of a scope is what is read there, as far as it is open -/
theorem recordOne_open (outer : List (List Mention)) (before after : List Mention) (s : Symbols)
    (hs : ∀ x, s.isBound x = (Mention.binds before).contains x) : (m : Mention) →
    (pending outer (before ++ m :: after) (recordOne m s)).Perm
      (pending outer (before ++ m :: after) s ++ Usage.opens (Usage.atMention outer before after m))
  | .read r => by
    have hopen := isOpen_eq r before outer s hs
    rw [recordOne, reference, Usage.atMention, Usage.opens]
    cases hb : s.isBound r.name with
    | true =>
      rw [hb] at hopen
      simp [hopen]
    | false =>
      rw [hb] at hopen
      have hfree : [r].filter (·.isFree outer) = Usage.opens [⟨r, before, outer⟩] := by
        rw [Usage.opens, List.filter_singleton, List.filter_singleton, hopen]
        cases r.isFree outer <;> rfl
      -- the read is recorded among the free ones, before all that functions have handed on
      simp only [pending, Bool.false_eq_true, if_false, List.filter_append]
      rw [hfree, List.append_assoc, List.append_assoc]
      exact List.perm_append_comm.append_left _
  | .bind name => by
    rw [recordOne, Usage.atMention, pending, free_define, deferred_define]
    simp [Usage.opens, pending]
  | .function scope => by
    -- the scope of the function begins empty, and this one is around it, with what is yet to come
    have hinner := record_open ((before ++ .function scope :: after) :: outer) [] empty (fun _ => rfl) scope
    rw [List.nil_append, ← unresolved_filter] at hinner
    simp only [recordOne, defer, pending, List.filter_append, Usage.atMention]
    rw [← List.append_assoc]
    exact hinner.append_left _

/-- **What a scope has recorded** when it has come to its end is what is read in it, as far as it is open. -/
theorem record_open (outer : List (List Mention)) (before : List Mention) (s : Symbols)
    (hs : ∀ x, s.isBound x = (Mention.binds before).contains x) : (rest : List Mention) →
    (pending outer (before ++ rest) (record rest s)).Perm
      (pending outer (before ++ rest) s ++ Usage.opens (Usage.among outer before rest))
  | [] => by
    simp [record, Usage.among, Usage.opens]
  | m :: more => by
    have hnext : ∀ x, (recordOne m s).isBound x = (Mention.binds (before ++ [m])).contains x := by
      intro x
      rw [isBound_recordOne, hs, Mention.binds_append, List.contains_append]
    have hone := recordOne_open outer before more s hs m
    have hmore := record_open outer (before ++ [m]) (recordOne m s) hnext more
    rw [List.append_assoc, List.singleton_append] at hmore
    rw [record, Usage.among, Usage.opens_append, ← List.append_assoc]
    exact hmore.trans (hone.append_right _)

end

/-- what is left of a scope that no other is around -/
theorem unresolved_record (whole : List Mention) :
    (record whole empty).unresolved.Perm (Usage.opens (Usage.among [] [] whole)) := by
  have hopen := record_open [] [] empty (fun _ => rfl) whole
  rw [List.nil_append, ← unresolved_filter] at hopen
  have hall : (record whole empty).unresolved.filter (·.isFree []) = (record whole empty).unresolved :=
    List.filter_eq_self.2 fun _ _ => rfl
  rwa [hall] at hopen

/-- **Open reads.** After a walk over trees, one after the other, the unresolved references are the open reads of the
trees, each once: the reads whose own scope has not bound the name before them and around which no scope binds it. -/
theorem unresolved_lookupAll (ns : List Node) :
    (lookupAll ns empty).unresolved.Perm (((Usage.ofTrees ns).filter Usage.isOpen).map Usage.reference) := by
  rw [lookupAll_record]
  exact unresolved_record (Node.outlineAll ns)

/-- a function that reads a name before it binds it, and another that reads what the top level binds after it -/
example :
    let name (s : String) : Node := .leaf .name (Token.identifier 1 s)
    let assignment (s t : String) : Node := .list .binary [name s, .leaf .mark (Token.identifier 1 "="), name t]
    let function (body : List Node) : Node := .list .closure [.list .parameters [name "a"], .list .block body]
    ((Usage.ofTrees [function [name "b", assignment "b" "a"], function [name "c"], assignment "c" "c"]).filter
      Usage.isOpen).map Usage.reference = [⟨"b", some 1⟩, ⟨"c", some 1⟩] := by decide

end Symbols

/-- **The check passes a program if it has no open read**, and only then. -/
theorem checkProgram_clean_iff {level : Level} {source : String} {ns : List Node}
    (h : parseProgram level source = .ok ns) :
    checkProgram level source = .ok (.clean ns.length) ↔ ∀ r ∈ Usage.ofTrees ns, r.isOpen = false := by
  have hnone : (Symbols.ofProgram ns).unresolved = [] ↔ ∀ r ∈ Usage.ofTrees ns, r.isOpen = false := by
    rw [Symbols.ofProgram, Symbols.lookupAll_record, ← List.length_eq_zero_iff,
      (Symbols.unresolved_record _).length_eq]
    simp [Usage.opens, Usage.ofTrees]
  rw [← hnone]
  cases hu : (Symbols.ofProgram ns).unresolved with
  | nil => exact iff_of_true (checkProgram_clean h hu) rfl
  | cons first more =>
    rw [checkProgram_unresolved h hu]
    simp

end Stone
