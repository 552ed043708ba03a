/-
Line numbers. Tokens carry the number of their line, and trees carry tokens; the numbers are for messages only. Here they
are changed by a function, which moves a program to other lines, puts it on a single line (`onLine`) or forgets them
(`withoutLines`).

- `sourceChars_mapLines`: the text of a tree has no line numbers in it.
- `Derives.mapLines`: tokens on other lines read as the same trees on these lines.
-/
import Stone.Proofs.Derivation

namespace Stone

open TokenStream Grammar

/-! ## Tokens -/

namespace Token

/-- the token with its line number changed -/
def mapLine (f : Nat → Nat) (t : Token) : Token := ⟨f t.line, t.lexeme⟩

@[simp] theorem lexeme_mapLine (f : Nat → Nat) (t : Token) : (t.mapLine f).lexeme = t.lexeme := rfl

@[simp] theorem text_mapLine (f : Nat → Nat) (t : Token) : (t.mapLine f).text = t.text := rfl

theorem mapLine_mapLine (f k : Nat → Nat) (t : Token) : (t.mapLine f).mapLine k = t.mapLine fun line => k (f line) := rfl

end Token

theorem lexeme_front_map (f : Nat → Nat) (ts : List Token) :
    (front (ts.map (Token.mapLine f))).lexeme = (front ts).lexeme := by
  cases ts <;> rfl

/-! ## Trees -/

namespace Node

mutual

/-- the tree with the line numbers of its tokens changed -/
def mapLines (f : Nat → Nat) : Node → Node
  | leaf kind t => leaf kind (t.mapLine f)
  | list kind children => list kind (mapLinesAll f children)

def mapLinesAll (f : Nat → Nat) : List Node → List Node
  | [] => []
  | n :: more => n.mapLines f :: mapLinesAll f more

end

/-- the tree without line numbers -/
def withoutLines (n : Node) : Node := n.mapLines fun _ => 0

/-- the tree on a single line -/
def onLine (line : Nat) (n : Node) : Node := n.mapLines fun _ => line

theorem mapLinesAll_eq (f : Nat → Nat) (ns : List Node) : mapLinesAll f ns = ns.map (mapLines f) := by
  induction ns with
  | nil => rfl
  | cons n more ih => rw [mapLinesAll, ih, List.map_cons]

@[simp] theorem mapLines_leaf (f : Nat → Nat) (kind : LeafKind) (t : Token) :
    (leaf kind t).mapLines f = leaf kind (t.mapLine f) := by
  rw [mapLines]

@[simp] theorem mapLines_list (f : Nat → Nat) (kind : ListKind) (ns : List Node) :
    (list kind ns).mapLines f = list kind (ns.map (mapLines f)) := by
  rw [mapLines, mapLinesAll_eq]

@[simp] theorem is_mapLines (f : Nat → Nat) (n : Node) (kind : ListKind) : (n.mapLines f).is kind = n.is kind := by
  cases n with
  | leaf _ _ => rw [mapLines_leaf]; rfl
  | list _ _ => rw [mapLines_list]; rfl

@[simp] theorem isVacuous_mapLines (f : Nat → Nat) (n : Node) : (n.mapLines f).isVacuous = n.isVacuous := by
  cases n with
  | leaf _ _ => rw [mapLines_leaf]; rfl
  | list kind children => rw [mapLines_list]; cases kind <;> cases children <;> rfl

@[simp] theorem isBareOperand_mapLines (f : Nat → Nat) (n : Node) :
    (n.mapLines f).isBareOperand = n.isBareOperand := by
  cases n with
  | leaf _ _ => rw [mapLines_leaf]; rfl
  | list _ _ => rw [mapLines_list]; rfl

/-- what holds of all leaves, and of a list as soon as it holds of all its children, holds of all trees -/
theorem induct {motive : Node → Prop} (leaf : ∀ kind t, motive (.leaf kind t))
    (list : ∀ kind children, (∀ n ∈ children, motive n) → motive (.list kind children)) (n : Node) : motive n :=
  @Node.rec motive (fun ns => ∀ n ∈ ns, motive n) leaf list (fun _ hn => nomatch hn)
    (fun _ _ hn hs m hm => by
      rcases List.mem_cons.1 hm with rfl | hm
      · exact hn
      · exact hs m hm) n

theorem mapLines_mapLines (f k : Nat → Nat) (n : Node) :
    (n.mapLines f).mapLines k = n.mapLines fun line => k (f line) := by
  induction n using induct with
  | leaf kind t => simp [Token.mapLine_mapLine]
  | list kind children ih =>
    rw [mapLines_list, mapLines_list, mapLines_list, List.map_map]
    exact congrArg (Node.list kind) (List.map_congr_left ih)

@[simp] theorem withoutLines_mapLines (f : Nat → Nat) (n : Node) : (n.mapLines f).withoutLines = n.withoutLines :=
  mapLines_mapLines f _ n

theorem wrapOperand_mapLines (f : Nat → Nat) (n : Node) (text : List Char) :
    (n.mapLines f).wrapOperand text = n.wrapOperand text := by
  rw [wrapOperand, wrapOperand, isBareOperand_mapLines]

theorem sourceOfAll_eq (ns : List Node) : sourceOfAll ns = ns.map sourceChars := by
  induction ns with
  | nil => rw [sourceOfAll, List.map_nil]
  | cons n more ih => rw [sourceOfAll, ih, List.map_cons]

theorem sourceOfStatements_eq (ns : List Node) :
    sourceOfStatements ns = (ns.filter fun n => !n.is .empty).map sourceChars := by
  induction ns with
  | nil => rw [sourceOfStatements, List.filter_nil, List.map_nil]
  | cons n more ih =>
    rw [sourceOfStatements, ih, List.filter_cons]
    cases n.is .empty <;> rfl

/-- trees that differ in nothing that their text shows have the same texts with and without empty statements -/
theorem sourceOfStatements_map {f : Node → Node} {ns : List Node} (hi : ∀ n ∈ ns, (f n).is .empty = n.is .empty)
    (hs : ∀ n ∈ ns, (f n).sourceChars = n.sourceChars) : sourceOfStatements (ns.map f) = sourceOfStatements ns := by
  induction ns with
  | nil => rfl
  | cons n more ih =>
    have h := ih (fun m hm => hi m (List.mem_cons_of_mem n hm)) fun m hm => hs m (List.mem_cons_of_mem n hm)
    rw [List.map_cons, sourceOfStatements, sourceOfStatements, hi n List.mem_cons_self, hs n List.mem_cons_self, h]

/-- **Text has no line numbers.** -/
theorem sourceChars_mapLines (f : Nat → Nat) (n : Node) : (n.mapLines f).sourceChars = n.sourceChars := by
  induction n using induct with
  | leaf kind t => cases kind <;> simp [sourceChars]
  | list kind children ih =>
    have hall : sourceOfAll (children.map (mapLines f)) = sourceOfAll children := by
      rw [sourceOfAll_eq, sourceOfAll_eq, List.map_map]
      exact List.map_congr_left ih
    have hstatements := sourceOfStatements_map (fun n _ => is_mapLines f n .empty) ih
    rw [mapLines_list]
    cases kind with
    | negative =>
      cases children with
      | nil => rfl
      | cons operand more =>
        rw [List.map_cons, sourceChars, sourceChars, ih operand List.mem_cons_self, wrapOperand_mapLines]
    | primary =>
      cases children with
      | nil => rfl
      | cons operand calls =>
        rw [List.map_cons, sourceOfAll, sourceOfAll, List.cons.injEq] at hall
        rw [List.map_cons, sourceChars, sourceChars, hall.1, hall.2, wrapOperand_mapLines]
    | block =>
      cases children with
      | nil => rfl
      | cons first more =>
        rw [List.map_cons] at hstatements
        rw [List.map_cons, sourceChars, sourceChars, hstatements]
    | empty => rw [sourceChars, sourceChars]
    | _ => rw [sourceChars, sourceChars, hall]

end Node

/-! ## Reading -/

section Reading

variable {g : Grammar}

theorem elementBegins_congr {t u : Token} (h : t.lexeme = u.lexeme) {begins begins' : RuleId → Option Bool}
    (hb : begins = begins') (e : Element) : elementBegins t begins e = elementBegins u begins' e := by
  have hl : t.isLiteral = u.isLiteral := by
    funext s
    rw [Token.isLiteral, Token.isLiteral, h]
  cases e with
  | token cls kind =>
    have ha : cls.accepts t = cls.accepts u := by cases cls <;> simp only [TokenClass.accepts, h]
    exact congrArg some ha
  | literal texts keep => rw [elementBegins, elementBegins, hl]
  | choice ids => rw [elementBegins, elementBegins, hb]
  | rule id => exact congrFun hb id
  | optional id => exact congrFun hb id
  | many id => exact congrFun hb id
  | operators id table kind => exact congrFun hb id

/-- what begins with a token begins with it on every line -/
theorem begins_congr {t u : Token} (h : t.lexeme = u.lexeme) : g.begins t = g.begins u := by
  have hw : ∀ steps, g.beginsWithin t steps = g.beginsWithin u steps := by
    intro steps
    induction steps with
    | zero => rfl
    | succ steps ih =>
      funext id
      rw [beginsWithin, beginsWithin]
      cases (g.rule id).elements with
      | nil => rfl
      | cons first _ => exact elementBegins_congr h ih first
  exact hw _

theorem chosen_congr {t u : Token} (h : t.lexeme = u.lexeme) (ids : List RuleId) : g.chosen t ids = g.chosen u ids := by
  rw [chosen, chosen, begins_congr h]

theorem operatorOf_congr {t u : Token} (h : t.lexeme = u.lexeme) (table : OperatorTable) :
    operatorOf table t = operatorOf table u := by
  rw [operatorOf, operatorOf, h]

theorem mapLines_build (f : Nat → Nat) (kind : ListKind) (ns : List Node) :
    (kind.build ns).mapLines f = kind.build (ns.map (Node.mapLines f)) := by
  have hl : ∀ ms : List Node, (Node.list kind ms).mapLines f = .list kind (ms.map (Node.mapLines f)) :=
    Node.mapLines_list f kind
  cases kind with
  | primary =>
    match ns with
    | [] => exact hl []
    | [_] => rfl
    | a :: b :: more => exact hl (a :: b :: more)
  | _ => exact hl ns

theorem mapLines_make (f : Nat → Nat) (b : Build) (ns : List Node) :
    (b.make ns).mapLines f = b.make (ns.map (Node.mapLines f)) := by
  cases b with
  | node kind => exact mapLines_build f kind ns
  | collapse =>
    match ns with
    | [] => exact Node.mapLines_list f .plain []
    | [_] => rfl
    | a :: b :: more => exact Node.mapLines_list f .plain (a :: b :: more)

/-- the task with the line numbers of what it has read already changed -/
def Task.mapLines (f : Nat → Nat) : Task → Task
  | climb id table kind waiting left => climb id table kind waiting (left.mapLines f)
  | task => task

/-- **Reading does not look at line numbers.** -/
theorem Derives.mapLines {n : Nat} {task : Task} {ts rest : List Token} {ns : List Node}
    (h : Derives g n task ts ns rest) (f : Nat → Nat) :
    Derives g n (task.mapLines f) (ts.map (Token.mapLine f)) (ns.map (Node.mapLines f)) (rest.map (Token.mapLine f)) := by
  induction h with
  | rule _ ih =>
    rw [List.map_singleton, mapLines_make]
    exact .rule ih
  | nil => exact .nil
  | cons _ _ ih1 ih2 =>
    rw [List.map_append]
    exact .cons ih1 ih2
  | call _ ih => exact .call ih
  | choice hc _ ih => exact .choice ((chosen_congr (lexeme_front_map f _) _).trans hc) ih
  | skipped hb => exact .skipped ((congrFun (begins_congr (lexeme_front_map f _)) _).trans hb)
  | @taken _ _ _ _ m hb _ ih =>
    rw [apply_ite (List.map (Node.mapLines f)), ← Node.isVacuous_mapLines f m]
    exact .taken ((congrFun (begins_congr (lexeme_front_map f _)) _).trans hb) ih
  | repetition _ ih => exact .repetition ih
  | manyNil hb => exact .manyNil ((congrFun (begins_congr (lexeme_front_map f _)) _).trans hb)
  | @manyCons _ _ _ _ _ m _ hb _ _ ih1 ih2 =>
    rw [apply_ite (List.map (Node.mapLines f)), ← Node.isVacuous_mapLines f m]
    exact .manyCons ((congrFun (begins_congr (lexeme_front_map f _)) _).trans hb) ih1 ih2
  | @token _ cls _ t _ ha =>
    rw [List.map_cons, List.map_singleton, Node.mapLines_leaf]
    exact .token ha
  | literal ha =>
    rw [apply_ite (List.map (Node.mapLines f)), List.map_cons, List.map_singleton, Node.mapLines_leaf]
    exact .literal ha
  | chain _ _ ih1 ih2 => exact .chain ih1 ih2
  | climbStop hs => exact .climbStop fun p hp => hs p ((operatorOf_congr (lexeme_front_map f _) _).symm.trans hp)
  | climbStep ho hy _ _ _ ih1 ih2 ih3 =>
    rw [Task.mapLines, mapLines_build] at ih3
    exact .climbStep ((operatorOf_congr (Token.lexeme_mapLine f _) _).trans ho) hy ih1 ih2 ih3

end Reading

end Stone
