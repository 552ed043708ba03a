/-
From JSON back to trees. A leaf is written as its kind, the text of its token and its line. Which class of token it has
follows from the kind: leaves of numbers have numbers, leaves of strings have strings, and all others have identifiers.
The value of a number follows from its text, since numbers of a program have neither sign nor fraction, and so the text
of each is read back as this number.

- `Node.ofJson_toJson`: a tree whose leaves can be read off their texts is the tree of its JSON.
- `Fits.legible`: the trees of the language are such.
- `trees_of_json`: the statements of a program are those that its JSON spells, and no other program has the same JSON
  and other statements.
-/
import Stone.Command
import Stone.Proofs.JsonReader
import Stone.Proofs.Numerals
import Stone.Proofs.Shape

namespace Stone

/-! ## The decoder -/

/-- the kind with this label -/
def LeafKind.ofLabel? (label : String) : Option LeafKind :=
  [mark, number, string, name].find? (·.label == label)

def ListKind.ofLabel? (label : String) : Option ListKind :=
  [plain, primary, negative, binary, block, conditional, loop, empty, parameters, definition, arguments,
    closure].find? (·.label == label)

/-- the lexeme that has this text in a leaf of the kind -/
def LeafKind.lexeme? (kind : LeafKind) (text : String) : Option Lexeme :=
  match kind with
  | number => (Decimal.readPlain? text.toList).map .number
  | string => some (.string text)
  | mark | name => some (.identifier text)

mutual

/-- the tree that a JSON value stands for -/
def Node.ofJson? : Json → Option Node
  | .object [("kind", .string label), ("line", .integer line), ("text", .string text)] => do
    let kind ← LeafKind.ofLabel? label
    let lexeme ← kind.lexeme? text
    some (.leaf kind ⟨line.toNat, lexeme⟩)
  | .object [("children", .array items), ("kind", .string label)] => do
    let kind ← ListKind.ofLabel? label
    let children ← Node.allOfJson? items
    some (.list kind children)
  | _ => none

def Node.allOfJson? : List Json → Option (List Node)
  | [] => some []
  | j :: more => do
    let n ← Node.ofJson? j
    let ns ← Node.allOfJson? more
    some (n :: ns)

end

/-- the trees that a text spells -/
def decodeTrees? (text : String) : Option (List Node) :=
  match Json.read? text with
  | some (.array items) => Node.allOfJson? items
  | _ => none

/-! ## Trees -/

/-- the text of the token says which token of its line it is -/
def LeafKind.Legible (kind : LeafKind) (t : Token) : Prop := kind.lexeme? t.text = some t.lexeme

theorem LeafKind.ofLabel_label (kind : LeafKind) : ofLabel? kind.label = some kind := by cases kind <;> rfl

theorem ListKind.ofLabel_label (kind : ListKind) : ofLabel? kind.label = some kind := by cases kind <;> rfl

namespace Node

theorem allToJson_eq (ns : List Node) : allToJson ns = ns.map toJson := by
  induction ns with
  | nil => rfl
  | cons n ns ih => rw [allToJson, ih, List.map_cons]

theorem allOfJson_map {ns : List Node} (h : ∀ n ∈ ns, ofJson? n.toJson = some n) :
    allOfJson? (ns.map toJson) = some ns := by
  induction ns with
  | nil => rfl
  | cons n ns ih =>
    obtain ⟨hn, hns⟩ := List.forall_mem_cons.1 h
    simp [allOfJson?, hn, ih hns]

/-- **A legible tree** is the tree of its JSON. -/
theorem ofJson_toJson {n : Node} (h : n.Leafwise LeafKind.Legible) : ofJson? n.toJson = some n := by
  induction h with
  | @leaf kind t h =>
    rw [LeafKind.Legible] at h
    simp [toJson, ofJson?, LeafKind.ofLabel_label, h]
  | @list kind children _ ih =>
    simp [toJson, ofJson?, ListKind.ofLabel_label, allToJson_eq, allOfJson_map ih]

theorem toJson_textual (n : Node) : n.toJson.Textual := by
  induction n using Node.induct with
  | leaf kind t =>
    rw [toJson]
    refine .object ?_
    simp only [List.forall_mem_cons]
    exact ⟨.string _, .natural _, .string _, nofun⟩
  | list kind children ih =>
    rw [toJson, allToJson_eq]
    refine .object ?_
    simp only [List.forall_mem_cons]
    exact ⟨.array (List.forall_mem_map.2 ih), .string _, nofun⟩

end Node

/-! ## Programs -/

/-- **The trees of the language are legible.** -/
theorem Fits.legible {l : Level} {r : Role} {n : Node} (h : Fits l Token.Scanned r n) :
    n.Leafwise LeafKind.Legible := by
  refine h.leafwise.mono ?_
  rintro kind ⟨line, x⟩ ⟨hscanned, htakes⟩
  match kind, x, htakes with
  | .number, .number d, _ =>
    have hread : Decimal.readPlain? d.digits = some d := Decimal.readPlain_digits fun _ => hscanned.1
    simp [LeafKind.Legible, LeafKind.lexeme?, Token.text, Decimal.text, hread]
  | .string, .string _, _ | .mark, .identifier _, _ | .name, .identifier _, _ => rfl

/-- the text of legible trees spells these trees, in each layout -/
theorem decodeTrees_render (indented : Bool) {ns : List Node} (h : ∀ n ∈ ns, n.Leafwise LeafKind.Legible) :
    decodeTrees? (TreeFormat.json.render indented ns) = some ns := by
  have hread : ∀ l : Json.Layout, l.Blank → decodeTrees? ((Json.array (ns.map Node.toJson)).text l) = some ns := by
    intro l hl
    have htextual : (Json.array (ns.map Node.toJson)).Textual :=
      .array (List.forall_mem_map.2 fun n _ => n.toJson_textual)
    rw [decodeTrees?, htextual.read hl]
    exact Node.allOfJson_map fun n hn => Node.ofJson_toJson (h n hn)
  cases indented with
  | true => exact hread _ Json.Layout.indented_blank
  | false => exact hread _ Json.Layout.compact_blank

theorem showTrees_json {level : Level} {indented : Bool} {source text : String}
    (h : showTrees level .json indented source = .ok text) :
    ∃ ns, parseProgram level source = .ok ns ∧ decodeTrees? text = some ns := by
  unfold showTrees at h
  split at h
  · cases h
  · rename_i ns hns
    cases h
    exact ⟨ns, hns, decodeTrees_render indented fun n hn => (parseProgram_fits hns n hn).1.legible⟩

/-- **Trees as JSON lose nothing.** The statements of a program can be read off their JSON, compact or indented, and
every program that is shown by the same text has the same statements, on whatever level and in whatever layout. -/
theorem trees_of_json {level : Level} {source : String} {ns : List Node} (h : parseProgram level source = .ok ns)
    (indented : Bool) : ∃ text, showTrees level .json indented source = .ok text ∧ decodeTrees? text = some ns ∧
      ∀ level' indented' source', showTrees level' .json indented' source' = .ok text →
        parseProgram level' source' = .ok ns := by
  have hshow : showTrees level .json indented source = .ok (TreeFormat.json.render indented ns) := by
    rw [showTrees, h]
  obtain ⟨ns', hns', hdecode⟩ := showTrees_json hshow
  obtain rfl : ns = ns' := Except.ok.inj (h.symm.trans hns')
  refine ⟨_, hshow, hdecode, ?_⟩
  intro level' indented' source' hshow'
  obtain ⟨ns', hns', hdecode'⟩ := showTrees_json hshow'
  rwa [Option.some.inj (hdecode.symm.trans hdecode')]

/-- a text with a quote in it, and a call on the next line -/
theorem trees_of_quoted_json :
    let source := "s = \"a\\\"b\"\nf(1)"
    let ns : List Node :=
      [.list .binary
        [.leaf .name ⟨1, .identifier "s"⟩, .leaf .mark ⟨1, .identifier "="⟩, .leaf .string ⟨1, .string "a\"b"⟩],
      .list .primary
        [.leaf .name ⟨2, .identifier "f"⟩, .list .arguments [.leaf .number ⟨2, .number Decimal.one⟩]]]
    parseProgram .closures source = .ok ns ∧
    ∃ text, showTrees .closures .json true source = .ok text ∧ decodeTrees? text = some ns ∧
      ∀ level' indented' source', showTrees level' .json indented' source' = .ok text →
        parseProgram level' source' = .ok ns := by
  intro source ns
  have hparse : parseProgram .closures source = .ok ns := by cbv
  exact ⟨hparse, trees_of_json hparse true⟩

end Stone
