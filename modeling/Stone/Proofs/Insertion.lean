/-
A further alternative for a rule, and what it does to lookahead. The new alternative is joined to a choice at the front
of the rule, or else the rule becomes a choice between the alternative and what it was, which moves to a place of its own
(`Inserted`).

Where the alternative cannot begin, a rule can begin with what it could begin with before. Every question about the rule
now asks about the alternative first, so an answer after the insertion is an answer before it; an answer before it
remains one unless the alternative itself looks through the rule and the question comes back to itself.

- `inserted_withChoice`: the two forms of the new table.
- `sight_before`: what can begin after the insertion could begin before it.
- `sight_after`: and the other way round.
-/
import Stone.Proofs.Sight

namespace Stone

open TokenStream Parsing Grammar Stone.Language

namespace Grammar

/-! ## The table after an insertion -/

/-- the table with a further alternative for a rule -/
def withChoice (g : Grammar) (id alternative : RuleId) : Grammar := ((insertChoice id alternative).run g).2

/-- the rules of the table call only rules of the table -/
def Closed (g : Grammar) : Prop :=
  ∀ id < g.rules.size, ∀ e ∈ (g.rule id).elements, ∀ x ∈ calls e, x < g.rules.size

instance (g : Grammar) : Decidable g.Closed :=
  inferInstanceAs (Decidable (∀ id < g.rules.size, ∀ e ∈ (g.rule id).elements, ∀ x ∈ calls e, x < g.rules.size))

/-- table `g'` is table `g` with the alternative `c` for rule `r` -/
inductive Inserted (g g' : Grammar) (r c : RuleId) : Prop
  /-- the alternative has joined the choice at the front of the rule -/
  | joined (alternatives : List RuleId) (more : List Element) :
      (g.rule r).elements = .choice alternatives :: more → (g'.rule r).elements = .choice (c :: alternatives) :: more →
      (g'.rule r).build = (g.rule r).build → g'.rules.size = g.rules.size → (∀ id ≠ r, g'.rule id = g.rule id) →
      Inserted g g' r c
  /-- the rule is a choice, and what it was has a place of its own -/
  | wrapped :
      (g'.rule r).elements = [.choice [c, g.rules.size]] → (g'.rule r).build = .collapse →
      g'.rules.size = g.rules.size + 1 → g'.rule g.rules.size = g.rule r →
      (∀ id ≠ r, id ≠ g.rules.size → g'.rule id = g.rule id) → Inserted g g' r c

variable {g g' : Grammar} {r c : RuleId}

theorem rule_modify (rules : Array Rule) (f : Rule → Rule) {id : RuleId} (hid : id < rules.size) :
    (Grammar.mk (rules.modify id f)).rule id = f ((Grammar.mk rules).rule id) ∧
      ∀ x ≠ id, (Grammar.mk (rules.modify id f)).rule x = (Grammar.mk rules).rule x := by
  refine ⟨?_, fun x hx => ?_⟩
  · simp [Grammar.rule, hid, Array.getElem_modify]
  · simp [Grammar.rule, Array.getElem?_modify, Ne.symm hx]

theorem rule_push (rules : Array Rule) (new : Rule) :
    (Grammar.mk (rules.push new)).rule rules.size = new ∧
      ∀ x ≠ rules.size, (Grammar.mk (rules.push new)).rule x = (Grammar.mk rules).rule x := by
  refine ⟨?_, fun x hx => ?_⟩
  · simp [Grammar.rule]
  · simp [Grammar.rule, Array.getElem?_push, hx]

/-- **What an insertion does to the table.** -/
theorem inserted_withChoice (hr : r < g.rules.size) (c : RuleId) : Inserted g (g.withChoice r c) r c := by
  by_cases hchoice : ∃ alternatives more, (g.rule r).elements = .choice alternatives :: more
  · obtain ⟨alternatives, more, he⟩ := hchoice
    let joined : Rule := { g.rule r with elements := .choice (c :: alternatives) :: more }
    have htable : g.withChoice r c = ⟨g.rules.modify r fun _ => joined⟩ := by
      simp [withChoice, insertChoice, he, update]
      rfl
    obtain ⟨hat, hothers⟩ := rule_modify g.rules (fun _ => joined) hr
    rw [htable]
    exact .joined alternatives more he (by rw [hat]) (by rw [hat]) (by simp) hothers
  · let wrapped : Rule := { name := (g.rule r).name, elements := [.choice [c, g.rules.size]] }
    have htable : g.withChoice r c = ⟨(g.rules.push (g.rule r)).modify r fun _ => wrapped⟩ := by
      simp only [withChoice, insertChoice]
      cases he : (g.rule r).elements with
      | nil => simp [he]; rfl
      | cons e es =>
        cases e with
        | choice alternatives => exact absurd ⟨alternatives, es, he⟩ hchoice
        | _ => simp [he]; rfl
    have hsize : g.rules.size < (g.rules.push (g.rule r)).size := by simp
    obtain ⟨hat, hothers⟩ := rule_modify (g.rules.push (g.rule r)) (fun _ => wrapped) (hr.trans hsize)
    obtain ⟨hnew, hold⟩ := rule_push g.rules (g.rule r)
    rw [htable]
    refine .wrapped (by rw [hat]) (by rw [hat]) (by simp) ?_ fun x hx hxsize => ?_
    · rw [hothers _ hr.ne', hnew]
    · rw [hothers x hx, hold x hxsize]

/-- what a rule of the new table was before: the new place holds what the rule was -/
def original (g : Grammar) (r id : RuleId) : RuleId := if id < g.rules.size then id else r

theorem original_of_lt {id : RuleId} (hid : id < g.rules.size) : g.original r id = id := if_pos hid

theorem original_size : g.original r g.rules.size = r := if_neg (Nat.lt_irrefl _)

theorem Closed.calls_lt (hg : g.Closed) {id x : RuleId} {e : Element} (he : e ∈ (g.rule id).elements)
    (hx : x ∈ calls e) : x < g.rules.size := by
  rcases Nat.lt_or_ge id g.rules.size with hid | hid
  · exact hg id hid e he x hx
  · rw [Grammar.rule, Array.getElem?_eq_none hid] at he
    cases he

namespace Inserted

theorem size_le (h : Inserted g g' r c) : g.rules.size ≤ g'.rules.size := by
  cases h with
  | joined _ _ _ _ _ hsize _ => exact Nat.le_of_eq hsize.symm
  | wrapped _ _ hsize _ _ => exact hsize ▸ Nat.le_succ _

/-- a rule other than the one that has got the alternative is what it was -/
theorem kept (h : Inserted g g' r c) {id : RuleId} (hid : id < g'.rules.size) (hne : id ≠ r) :
    g'.rule id = g.rule (g.original r id) := by
  cases h with
  | joined _ _ _ _ _ hsize hothers => rw [original_of_lt (hsize ▸ hid), hothers id hne]
  | wrapped _ _ hsize hnew hothers =>
    rcases Nat.lt_or_ge id g.rules.size with hlt | hge
    · rw [original_of_lt hlt, hothers id hne (Nat.ne_of_lt hlt)]
    · obtain rfl : id = g.rules.size := Nat.le_antisymm (Nat.le_of_lt_succ (hid.trans_eq hsize)) hge
      rw [original_size, hnew]

end Inserted

/-! ## Lookahead after an insertion -/

section Lookahead

variable {entry : Entry} {ask ask' : RuleId → Except (Stop ParseError) Bool}

/-- an alternative that cannot begin is passed over -/
theorem firstSight_cons_false {ids : List RuleId} (h : ask c = .ok false) :
    firstSight ask (c :: ids) = firstSight ask ids := by
  rw [firstSight, h]

/-- a choice that has an answer has one for its first alternative -/
theorem ok_of_firstSight_cons {ids : List RuleId} {o : Option RuleId} (h : firstSight ask (c :: ids) = .ok o) :
    ∃ b, ask c = .ok b := by
  rw [firstSight] at h
  cases ha : ask c with
  | error e => rw [ha] at h; cases h
  | ok b => exact ⟨b, rfl⟩

theorem ok_of_map_isSome {o : Except (Stop ParseError) (Option RuleId)} {b : Bool} (h : o.map Option.isSome = .ok b) :
    ∃ x, o = .ok x ∧ x.isSome = b := by
  cases o with
  | error e => cases h
  | ok x => exact ⟨x, rfl, Except.ok.inj h⟩

/-- a choice of one is a question about it -/
theorem firstSight_single {id : RuleId} : (firstSight ask [id]).map Option.isSome = ask id := by
  rw [firstSight]
  rcases ask id with e | _ | _ <;> rfl

/-- **What can begin after an insertion could begin before**, where the alternative could not. -/
theorem sight_before (h : Inserted g g' r c) (hg : g.Closed) (hr : r < g.rules.size) (hc : c < g.rules.size)
    (hno : ∀ k b, g.sightWithin entry k c = .ok b → b = false) (k : Nat) {id : RuleId} {b : Bool}
    (hid : id < g'.rules.size) (hb : g'.sightWithin entry k id = .ok b) :
    g.sightWithin entry k (g.original r id) = .ok b := by
  induction k generalizing id b with
  | zero => cases hb
  | succ k ih =>
    have hcalls : ∀ {x b}, x < g.rules.size → g'.sightWithin entry k x = .ok b → g.sightWithin entry k x = .ok b := by
      intro x b hx hb
      have hold := ih (hx.trans_le h.size_le) hb
      rwa [original_of_lt hx] at hold
    -- an answer about the alternative is an answer from before, so it was passed over
    have hpassed : ∀ {b}, g'.sightWithin entry k c = .ok b → g'.sightWithin entry k c = .ok false := by
      intro b hb
      rwa [hno k b (hcalls hc hb)] at hb
    rcases eq_or_ne id r with rfl | hne
    · rw [original_of_lt hr]
      rw [sightWithin] at hb
      cases h with
      | joined alternatives more he he' _ _ _ =>
        simp only [he', elementSight] at hb
        obtain ⟨o, ho, rfl⟩ := ok_of_map_isSome hb
        obtain ⟨b', hb'⟩ := ok_of_firstSight_cons ho
        rw [firstSight_cons_false (hpassed hb')] at ho
        have hin : ∀ x ∈ alternatives, x < g.rules.size := fun x hx =>
          hg.calls_lt (e := .choice alternatives) (by rw [he]; exact List.mem_cons_self) hx
        have hold := firstSight_mono (fun x hx b => hcalls (hin x hx)) ho
        simp only [sightWithin, he, elementSight, hold]
        rfl
      | wrapped he' _ hsize _ _ =>
        simp only [he', elementSight] at hb
        obtain ⟨o, ho, hob⟩ := ok_of_map_isSome hb
        obtain ⟨b', hb'⟩ := ok_of_firstSight_cons ho
        rw [firstSight_cons_false (hpassed hb'), firstSight_single] at hb
        have hold := ih (hsize ▸ Nat.lt_succ_self _) hb
        rw [original_size] at hold
        exact sightWithin_mono hold (Nat.le_succ k)
    · rw [sightWithin, h.kept hid hne] at hb
      rw [sightWithin]
      cases he : (g.rule (g.original r id)).elements with
      | nil => rw [he] at hb; exact hb
      | cons first more =>
        rw [he] at hb
        exact elementSight_mono (fun x hx b => hcalls (hg.calls_lt (by rw [he]; exact List.mem_cons_self) hx)) hb

/-- **What could begin before an insertion can begin after it**, where the alternative cannot. Every rule on the way
costs two steps at most, and the alternative those of its own. -/
theorem sight_after (h : Inserted g g' r c) (hg : g.Closed) (hr : r < g.rules.size) {n : Nat}
    (hno : g'.sightWithin entry n c = .ok false) (k : Nat) {id : RuleId} {b : Bool} (hid : id < g'.rules.size)
    (hb : g.sightWithin entry k (g.original r id) = .ok b) : g'.sightWithin entry (2 * k + n) id = .ok b := by
  induction k generalizing id b with
  | zero => cases hb
  | succ k ih =>
    have hcalls : ∀ {x b}, x < g.rules.size → g.sightWithin entry k x = .ok b →
        g'.sightWithin entry (2 * k + n) x = .ok b := fun {x b} hx hb =>
      ih (hx.trans_le h.size_le) (by rwa [original_of_lt hx])
    have hkept : ∀ {x b}, x < g'.rules.size → x ≠ r → g.sightWithin entry (k + 1) (g.original r x) = .ok b →
        g'.sightWithin entry (2 * k + n + 1) x = .ok b := by
      intro x b hx hne hb
      rw [sightWithin] at hb
      rw [sightWithin, h.kept hx hne]
      cases he : (g.rule (g.original r x)).elements with
      | nil => rw [he] at hb; exact hb
      | cons first more =>
        rw [he] at hb
        exact elementSight_mono (fun y hy b => hcalls (hg.calls_lt (by rw [he]; exact List.mem_cons_self) hy)) hb
    rcases eq_or_ne id r with rfl | hne
    · have hpassed := sightWithin_mono hno (Nat.le_add_left n (2 * k + 1))
      rw [original_of_lt hr] at hb
      rw [show 2 * (k + 1) + n = 2 * k + 1 + n + 1 by omega, sightWithin]
      cases h with
      | joined alternatives more he he' _ _ _ =>
        simp only [sightWithin, he, elementSight] at hb
        simp only [he', elementSight, firstSight_cons_false hpassed]
        obtain ⟨o, ho, rfl⟩ := ok_of_map_isSome hb
        have hin : ∀ x ∈ alternatives, x < g.rules.size := fun x hx =>
          hg.calls_lt (e := .choice alternatives) (by rw [he]; exact List.mem_cons_self) hx
        have hnew := firstSight_mono (fun x hx b hb =>
          sightWithin_mono (hcalls (hin x hx) hb) (by omega : _ ≤ 2 * k + 1 + n)) ho
        rw [hnew]
        rfl
      | wrapped he' _ hsize _ _ =>
        simp only [he', elementSight, firstSight_cons_false hpassed, firstSight_single]
        have hnew := hkept (hsize ▸ Nat.lt_succ_self _) hr.ne' (by rwa [original_size])
        exact sightWithin_mono hnew (by omega)
    · exact sightWithin_mono (hkept hid hne hb) (by omega)

end Lookahead

/-! ## Alternatives that look through the rule -/

/-- the question whether rule `x` can begin may come to rule `r` -/
inductive LooksThrough (g : Grammar) : RuleId → RuleId → Prop
  | here {r : RuleId} : LooksThrough g r r
  | first {x y r : RuleId} {e : Element} {more : List Element} :
      (g.rule x).elements = e :: more → y ∈ calls e → LooksThrough g y r → LooksThrough g x r

/-- an alternative that does not look through the rule answers as before -/
theorem sight_alternative {entry : Entry} (h : Inserted g g' r c) (hg : g.Closed) (hr : r < g.rules.size)
    (hc : c < g.rules.size) (hthrough : ¬ g.LooksThrough c r) {b : Bool} (hb : g.sight entry c = .ok b) :
    g'.sight entry c = .ok b := by
  suffices hall : ∀ k x b, x < g.rules.size → ¬ g.LooksThrough x r → g.sightWithin entry k x = .ok b →
      g'.sightWithin entry k x = .ok b from sight_stable (hall _ c b hc hthrough hb)
  intro k
  induction k with
  | zero => exact fun _ _ _ _ hb => nomatch hb
  | succ k ih =>
    intro x b hx hthrough hb
    have hne : x ≠ r := by
      rintro rfl
      exact hthrough .here
    have hkept := h.kept (hx.trans_le h.size_le) hne
    rw [original_of_lt hx] at hkept
    rw [sightWithin] at hb ⊢
    rw [hkept]
    cases he : (g.rule x).elements with
    | nil => rw [he] at hb; exact hb
    | cons first more =>
      rw [he] at hb
      refine elementSight_mono (fun y hy b => ih y b ?_ fun hy' => hthrough (.first he hy hy')) hb
      exact hg.calls_lt (by rw [he]; exact List.mem_cons_self) hy

end Grammar

end Stone
