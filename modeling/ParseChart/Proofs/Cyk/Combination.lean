import Mathlib.Data.List.Pairwise
import ParseChart.Proofs.Chart.Admission
import ParseChart.Proofs.Chart.Order
import ParseChart.Proofs.Chart.Trees
import ParseChart.Proofs.Cyk.Parses
/-!
# A combination on a shared chart

The constituents left and right of a split are read before anything is inserted, all that is made of them lies
in one cell, and there the constituents of one symbol share one id. So on a chart of both parsers a combination
puts, behind the constituents of each symbol, those that are missing, and does nothing else.
-/

namespace ParseChart

open ChartItem

/-! ## Charts between integers -/

namespace Item

/-- The ends are integers, and no truth values. -/
def BetweenIntegers (x : Item) : Prop := ∃ i j : Int, x.start? = some (.int i) ∧ x.stop? = some (.int j)

def isConstituentOf (a : String) (x : Item) : Bool := x.isOf .cyk && x.derives a

theorem isConstituentOf_iff {a : String} {x : Item} :
    x.isConstituentOf a = true ↔ x.isOf .cyk = true ∧ ∃ r, x.rule? = some r ∧ r.lhs = a := by
  simp [isConstituentOf, derives, Option.any_eq_true]

theorem isConstituentOf_of_lhs {a : String} {x : Item} (h : x.isConstituentOf a = true) (b : String) :
    x.isConstituentOf b = (a == b) := by
  obtain ⟨hcyk, r, hr, rfl⟩ := isConstituentOf_iff.1 h
  simp [isConstituentOf, hcyk, derives, hr]

theorem spelledAlike_of_beq {x y : Item} {i j k l : Nat} (hx : Over x i j) (hy : Over y k l) (h : (x == y) = true) :
    (i = k ∧ j = l) ∧ x.SpelledAlike y := by
  have hstart := start_beq h
  have hstop := stop_beq h
  rw [hx.start, hy.start] at hstart
  rw [hx.stop, hy.stop] at hstop
  obtain rfl := Int.natCast_inj.1 (Chart.int_eq_of_beq hstart rfl rfl)
  obtain rfl := Int.natCast_inj.1 (Chart.int_eq_of_beq hstop rfl rfl)
  exact ⟨⟨rfl, rfl⟩, .inr ⟨hx.start.trans hy.start.symm, hx.stop.trans hy.stop.symm⟩⟩

end Item

namespace Chart

variable {c : Chart Item} {x y : Item} {xs : List Item} {i j k l : Nat} {r : Rule} {cs : List Item}

/-- A chart of parsers' items between integers, without equal ones. -/
structure Integral (c : Chart Item) : Prop where
  mixed : c.Mixed
  distinct : c.Distinct
  between : ∀ x ∈ c, ∃ i j, Over x i j

theorem over_of_place {p : Place} (hk : x.kind?.isSome = true) (hx : x.BetweenIntegers) (hp : c.place x = .ok p) :
    Over x p.start p.stop := by
  obtain ⟨i, j, hstart, hstop⟩ := hx
  obtain ⟨-, ⟨u, hu, hi⟩, ⟨v, hv, hj⟩, -⟩ := place_eq_ok hp
  obtain ⟨front, s, -, -, hid⟩ := Item.exists_id hk
  cases hu.symm.trans hstart
  cases hv.symm.trans hstop
  cases hi
  cases hj
  exact ⟨⟨_, hid, rfl⟩, hu, hv⟩

theorem integral_empty (n : Nat) : (empty n).Integral :=
  ⟨mixed_empty n, distinct_empty n, fun x hx => absurd hx (not_mem_empty n x)⟩

theorem Integral.put (h : c.Integral) (hk : x.kind?.isSome = true) (hx : x.BetweenIntegers) : (c.put x).Integral := by
  refine ⟨h.mixed.put hk, h.mixed.filed.distinct_put h.distinct x, fun y hy => ?_⟩
  rcases h.mixed.filed.mem_put.1 hy with hy | ⟨rfl, -⟩
  · exact h.between y hy
  · obtain ⟨p, hp⟩ := (h.mixed.filed.put y).place_of_mem hy
    exact ⟨_, _, over_of_place hk hx hp⟩

theorem Integral.putAll (h : c.Integral) (hxs : ∀ x ∈ xs, x.kind?.isSome = true ∧ x.BetweenIntegers) :
    (c.putAll xs).Integral := by
  induction xs generalizing c with
  | nil => exact h
  | cons x xs ih =>
    obtain ⟨hk, hx⟩ := hxs x (by simp)
    exact ih (h.put hk hx) fun y hy => hxs y (List.mem_cons_of_mem x hy)

theorem Integral.over_of_cell (h : c.Integral) (hx : x ∈ c.cell i j) : Over x i j := by
  have hc := h.mixed.filed.mem_of_cell hx
  obtain ⟨k, l, hover⟩ := h.between x hc
  obtain ⟨-, rfl, rfl⟩ := (hover.mem_cell h.mixed.filed i j).1 hx
  exact hover

/-- No two items of such a chart are equal. -/
theorem Integral.eq_of_beq (h : c.Integral) (hx : x ∈ c) (hy : y ∈ c) (he : (x == y) = true) : x = y := by
  obtain ⟨i, j, hover⟩ := h.between x hx
  obtain ⟨k, l, hover'⟩ := h.between y hy
  obtain ⟨⟨rfl, rfl⟩, halike⟩ := Item.spelledAlike_of_beq hover hover' he
  obtain ⟨p, hp⟩ := h.mixed.filed.place_of_mem hx
  obtain ⟨q, hq⟩ := h.mixed.filed.place_of_mem hy
  by_contra hne
  have hsymm : Std.Symm fun x y : Item => ¬ Twin x y := ⟨fun _ _ hn htwin => hn htwin.symm⟩
  exact (h.mixed.filed.pairwise_rowFrom h.distinct i).forall ((hover.mem_rowFrom h.mixed.filed i).2 ⟨hx, rfl⟩)
    ((hover'.mem_rowFrom h.mixed.filed i).2 ⟨hy, rfl⟩) hne ((twin_iff_alike hp hq).2 ⟨he, halike⟩)

theorem Integral.pairwise_cell (h : c.Integral) (i j : Nat) : (c.cell i j).Pairwise fun x y => (x == y) = false := by
  refine h.mixed.filed.nodup_cell.imp_of_mem fun hx hy hne => ?_
  rw [← Bool.not_eq_true]
  exact fun he => hne (h.eq_of_beq (h.mixed.filed.mem_of_cell hx) (h.mixed.filed.mem_of_cell hy) he)

/-- An item is added iff its cell has none that is equal to it. -/
theorem Integral.adds_iff (h : c.Integral) (hx : Over x i j) {p : Place} (hp : c.place x = .ok p) :
    c.adds x = true ↔ ∀ y ∈ c.cell i j, (y == x) = false := by
  rw [adds_of_place hp, Bool.not_eq_true', ← Bool.not_eq_true, h.mixed.filed.holds_iff_alike hp]
  constructor
  · intro hn y hy
    rw [← Bool.not_eq_true]
    intro he
    exact hn ⟨y, h.mixed.filed.mem_of_cell hy, he, (Item.spelledAlike_of_beq (h.over_of_cell hy) hx he).2⟩
  · rintro hall ⟨y, hy, he, -⟩
    obtain ⟨k, l, hover⟩ := h.between y hy
    obtain ⟨rfl, rfl⟩ := (Item.spelledAlike_of_beq hover hx he).1
    have hne := hall y ((hover.mem_cell h.mixed.filed k l).2 ⟨hy, rfl, rfl⟩)
    rw [he] at hne
    cases hne

/-! ## Constituents of one cell -/

/-- A new constituent comes to stand behind those of its symbol. -/
theorem Integral.constituents_put (h : c.Integral) (hx : x = .cyk r (.between i j) cs) (hadds : c.adds x = true)
    (a : String) : ((c.put x).cell i j).filter (·.isConstituentOf a) =
      (c.cell i j).filter (·.isConstituentOf a) ++ [x].filter (·.isConstituentOf a) := by
  cases hp : c.place x with
  | error cause =>
    rw [(put_of_error hp).2] at hadds
    cases hadds
  | ok p =>
    have hover : Over x i j := hx ▸ Cyk.over_cyk
    -- In one cell ids tell no more than symbols, so behind its id is behind its symbol.
    have hnamed : ∀ y ∈ c.cell i j, named p.id y = y.isConstituentOf r.lhs := by
      intro y hy
      rw [Bool.eq_iff_iff, Item.isConstituentOf, Bool.and_eq_true]
      exact Item.named_iff (h.mixed.kinds y (h.mixed.filed.mem_of_cell hy)) (h.over_of_cell hy)
        (hx ▸ (place_eq_ok hp).1)
    have hxa : x.isConstituentOf a = (r.lhs == a) := by
      subst hx
      rfl
    have hsame : ∀ y ∈ c.cell i j, y.isConstituentOf r.lhs = true → y.isConstituentOf a = x.isConstituentOf a := by
      intro y _ hy
      rw [Item.isConstituentOf_of_lhs hy a, hxa]
    rw [h.mixed.cell_put (hx ▸ rfl) hp hadds, if_pos (hover.place_eq hp), Buckets.insertBehind_congr hnamed,
      Buckets.filter_insertBehind hsame]
    by_cases ha : r.lhs = a
    · subst ha
      rw [beq_self_eq_true] at hxa
      rw [if_pos hxa, Buckets.insertBehind_of_all fun y hy => (List.mem_filter.1 hy).2, List.filter_cons_of_pos hxa]
      rfl
    · have hxa' : x.isConstituentOf a = false := by rw [hxa, beq_eq_false_iff_ne]; exact ha
      simp [hxa']

/-- Of a list of constituents those that are new come to stand behind the others of their symbol, in their order. -/
theorem Integral.constituents_putAll (h : c.Integral) (hxs : ∀ x ∈ xs, ∃ r cs, x = .cyk r (.between i j) cs)
    (a : String) : ((c.putAll xs).cell i j).filter (·.isConstituentOf a) =
      (c.cell i j).filter (·.isConstituentOf a) ++ (c.newOf xs).filter (·.isConstituentOf a) := by
  induction xs generalizing c with
  | nil => simp [Chart.putAll, newOf]
  | cons x xs ih =>
    obtain ⟨r, cs, hx⟩ := hxs x (by simp)
    have hput : (c.put x).Integral := h.put (hx ▸ rfl) ⟨i, j, hx ▸ rfl, hx ▸ rfl⟩
    rw [Chart.putAll, List.foldl_cons, ← Chart.putAll, ih hput fun y hy => hxs y (List.mem_cons_of_mem x hy), newOf]
    cases hadds : c.adds x with
    | false => rw [put_of_not_adds hadds, if_neg Bool.false_ne_true]
    | true => rw [h.constituents_put hx hadds, if_pos rfl, List.append_assoc, ← List.filter_append, List.singleton_append]

end Chart

namespace Cyk

open ChartM

variable {p : Cyk} {g : Grammar} {c c' : Chart Item} {i m j : Nat} {a : String} {x y : Item}

/-! ## What is made of two cells -/

/-- A constituent of `a` made by a rule of one on the left and one on the right. -/
def Makes (g : Grammar) (lefts rights : List Item) (i j : Nat) (a : String) (x : Item) : Prop :=
  ∃ b b' left right, ⟨a, [b, b']⟩ ∈ g.rules ∧ (left ∈ lefts ∧ left.isConstituentOf b = true) ∧
    (right ∈ rights ∧ right.isConstituentOf b' = true) ∧ x = .cyk ⟨a, [b, b']⟩ (.between i j) [left, right]

theorem mem_joined (hg : p.grammar.isNormalForm = true) :
    x ∈ p.joined c i m j ∧ x.isConstituentOf a = true ↔ Makes p.grammar (c.cell i m) (c.cell m j) i j a x := by
  simp only [joined, List.mem_flatMap, mem_joins]
  constructor
  · rintro ⟨⟨left, hl, right, hr, s, s', hs, hs', ⟨lhs, rhs⟩, hq, rfl⟩, ha⟩
    obtain ⟨hq, rfl, -, -⟩ := Grammar.mem_binaryRulesFor.1 hq
    obtain ⟨hl, hlk⟩ := List.mem_filter.1 hl
    obtain ⟨hr, hrk⟩ := List.mem_filter.1 hr
    obtain rfl : lhs = a := beq_iff_eq.1 ha
    refine ⟨s.lhs, s'.lhs, left, right, hq, ⟨hl, ?_⟩, ⟨hr, ?_⟩, rfl⟩
    · simp [Item.isConstituentOf, Item.isOf, hlk, Item.derives, hs]
    · simp [Item.isConstituentOf, Item.isOf, hrk, Item.derives, hs']
  · rintro ⟨b, b', left, right, hq, ⟨hl, hb⟩, ⟨hr, hb'⟩, rfl⟩
    obtain ⟨hlk, s, hs, rfl⟩ := Item.isConstituentOf_iff.1 hb
    obtain ⟨hrk, s', hs', rfl⟩ := Item.isConstituentOf_iff.1 hb'
    refine ⟨⟨left, List.mem_filter.2 ⟨hl, hlk⟩, right, List.mem_filter.2 ⟨hr, hrk⟩, s, s', hs, hs', _, ?_, rfl⟩, ?_⟩
    · rw [Grammar.mem_binaryRulesFor]
      refine ⟨hq, rfl, ?_⟩
      rcases Grammar.normalForm_cases hg hq with ⟨d, hd, -⟩ | ⟨d, e, hde, hd, he⟩
      · cases hd
      · cases hde
        exact ⟨hd, he⟩
    · exact beq_self_eq_true a

theorem constituent_of_joined (hx : x ∈ p.joined c i m j) : ∃ r cs, x = .cyk r (.between i j) cs := by
  obtain ⟨r, left, right, rfl, -⟩ := exists_of_joined hx
  exact ⟨r, _, rfl⟩

theorem over_of_joined (hx : x ∈ p.joined c i m j) : x.kind?.isSome = true ∧ Over x i j := by
  obtain ⟨r, cs, rfl⟩ := constituent_of_joined hx
  exact ⟨rfl, over_cyk⟩

theorem isOf_of_joined (hx : x ∈ p.joined c i m j) (k : Kind) : x.isOf k = (k == .cyk) := by
  obtain ⟨r, cs, rfl⟩ := constituent_of_joined hx
  cases k <;> rfl

/-- What is made of other constituents, or by another rule, is not equal. -/
theorem eq_of_joined_beq (h : c.Integral) (hx : x ∈ p.joined c i m j) (hy : y ∈ p.joined c i m j) (he : (x == y) = true) :
    x = y := by
  obtain ⟨r, left, right, rfl, hl, hr⟩ := exists_of_joined hx
  obtain ⟨s, left', right', rfl, hl', hr'⟩ := exists_of_joined hy
  have hmem : ∀ {k l : Nat} {z : Item}, z ∈ c.constituents k l → z ∈ c := fun hz =>
    h.mixed.filed.mem_of_cell (List.mem_filter.1 hz).1
  simp only [Item.beq_eq_same, Item.same, Item.sameAll, Bool.and_eq_true, beq_iff_eq, and_true] at he
  obtain ⟨⟨rfl, -⟩, hleft, hright⟩ := he
  rw [← Item.beq_eq_same] at hleft hright
  rw [h.eq_of_beq (hmem hl) (hmem hl') hleft, h.eq_of_beq (hmem hr) (hmem hr') hright]

/-! ## One combination -/

/-- On the second chart the split `m` is combined, and nothing else is changed. -/
structure Combined (g : Grammar) (i m j : Nat) (c c' : Chart Item) : Prop where
  length : c'.length = c.length
  elsewhere : ∀ k l, k ≤ l → l ≤ c.length → (k, l) ≠ (i, j) →
    c'.itemsSpanning (.int k) (.int l) = c.itemsSpanning (.int k) (.int l)
  earley : c'.only .earley = c.only .earley
  cell : ∃ lefts rights before after, c.itemsSpanning (.int i) (.int m) = .ok lefts ∧
    c.itemsSpanning (.int m) (.int j) = .ok rights ∧ c.itemsSpanning (.int i) (.int j) = .ok before ∧
    c'.itemsSpanning (.int i) (.int j) = .ok after ∧
    ∀ a, ∃ made, after.filter (·.isConstituentOf a) = before.filter (·.isConstituentOf a) ++ made ∧
      made.Pairwise (fun x y => (x == y) = false) ∧
      ∀ x, x ∈ made ↔ Makes g lefts rights i j a x ∧ ∀ y ∈ before, (y == x) = false

/-- What is made of two cells stays the same when nothing is inserted in them. -/
theorem joined_putAll_of_ne {xs : List Item} {k n l : Nat} (h : c.Mixed) (hxs : ∀ x ∈ xs, x.kind?.isSome = true ∧ Over x i j)
    (hleft : ¬(i = k ∧ j = n)) (hright : ¬(i = n ∧ j = l)) : p.joined (c.putAll xs) k n l = p.joined c k n l := by
  unfold joined Chart.constituents
  rw [h.cell_putAll_of_ne hxs hleft, h.cell_putAll_of_ne hxs hright]

/-- The cells that are read are not the one in which something is inserted. -/
theorem joined_putAll (h : c.Mixed) (him : i < m) (hmj : m < j) :
    p.joined (c.putAll (p.joined c i m j)) i m j = p.joined c i m j :=
  joined_putAll_of_ne h (fun x => over_of_joined) (by omega) (by omega)

theorem made_of_joined (hg : p.grammar.isNormalForm = true) (h : c.Integral) (hij : i ≤ j) (hj : j ≤ c.length)
    (a : String) : ∃ made, ((c.putAll (p.joined c i m j)).cell i j).filter (·.isConstituentOf a) =
        (c.cell i j).filter (·.isConstituentOf a) ++ made ∧
      made.Pairwise (fun x y => (x == y) = false) ∧
      ∀ x, x ∈ made ↔ Makes p.grammar (c.cell i m) (c.cell m j) i j a x ∧ ∀ y ∈ c.cell i j, (y == x) = false := by
  have hplaced := placed_of_joined (p := p) (m := m) hij hj
  have hall := h.constituents_putAll (fun x (hx : x ∈ p.joined c i m j) => constituent_of_joined hx) a
  have hintegral : (c.putAll (p.joined c i m j)).Integral := h.putAll fun x hx =>
    ⟨(over_of_joined hx).1, i, j, (over_of_joined hx).2.start, (over_of_joined hx).2.stop⟩
  refine ⟨_, hall, ?_, fun x => ?_⟩
  · -- What was made stands on a chart without equal items.
    have hfilter := (hintegral.pairwise_cell i j).filter (·.isConstituentOf a)
    rw [hall, List.pairwise_append] at hfilter
    exact hfilter.2.1
  · rw [List.mem_filter, h.mixed.filed.mem_newOf_iff hplaced fun x hx y hy => eq_of_joined_beq h hx hy,
      ← mem_joined hg, and_right_comm]
    apply and_congr_right
    rintro ⟨hx, -⟩
    obtain ⟨q, hq⟩ := hplaced x hx
    exact h.adds_iff (over_of_joined hx).2 hq

theorem combined_putAll (hg : p.grammar.isNormalForm = true) (h : c.Integral) (him : i < m) (hmj : m < j)
    (hj : j ≤ c.length) : Combined p.grammar i m j c (c.putAll (p.joined c i m j)) := by
  have hlen := Chart.length_putAll c (p.joined c i m j)
  refine ⟨hlen, fun k l hkl hl hne => ?_, ?_, ?_⟩
  · rw [Chart.itemsSpanning_int hkl hl, Chart.itemsSpanning_int hkl (hlen ▸ hl),
      h.mixed.cell_putAll_of_ne (fun x => over_of_joined)]
    rintro ⟨rfl, rfl⟩
    exact hne rfl
  · have hnone : (p.joined c i m j).filter (·.isOf .earley) = [] := by
      apply List.filter_eq_nil_iff.2
      intro x hx
      rw [isOf_of_joined hx]
      exact Bool.false_ne_true
    rw [(h.mixed.only_putAll (fun x hx => (over_of_joined hx).1) .earley).1, hnone]
    rfl
  · exact ⟨_, _, _, _, Chart.itemsSpanning_int (by omega) (by omega), Chart.itemsSpanning_int (by omega) hj,
      Chart.itemsSpanning_int (by omega) hj, Chart.itemsSpanning_int (by omega) (hlen ▸ hj),
      made_of_joined hg h (by omega) hj⟩

/-- The part of the constituents is combined as it is by itself. -/
theorem only_putAll_joined (h : c.Mixed) :
    (c.putAll (p.joined c i m j)).only .cyk = (c.only .cyk).putAll (p.joined (c.only .cyk) i m j) := by
  have hconstituents : ∀ k l, (c.only .cyk).constituents k l = c.constituents k l := by
    intro k l
    unfold Chart.constituents
    rw [h.cell_only, List.filter_filter]
    apply List.filter_congr
    intro x _
    exact Bool.and_self _
  have hall : (p.joined c i m j).filter (·.isOf .cyk) = p.joined c i m j := by
    apply List.filter_eq_self.2
    intro x hx
    rw [isOf_of_joined hx]
    rfl
  have hjoined : p.joined (c.only .cyk) i m j = p.joined c i m j := by
    unfold joined
    rw [hconstituents, hconstituents]
  rw [(h.only_putAll (fun x hx => (over_of_joined hx).1) .cyk).1, hall, hjoined]

theorem putAll_joined_again (h : c.Mixed) (him : i < m) (hmj : m < j) (hj : j ≤ c.length) :
    (c.putAll (p.joined c i m j)).putAll (p.joined (c.putAll (p.joined c i m j)) i m j) =
      c.putAll (p.joined c i m j) := by
  rw [joined_putAll h him hmj]
  apply Chart.putAll_of_newOf_nil
  apply (h.filed.putAll _).newOf_eq_nil_of_twins
  intro x hx
  obtain ⟨q, hq⟩ := placed_of_joined (by omega) hj x hx
  exact h.filed.exists_twin_of_offered hx hq

theorem combine_integral (hg : p.grammar.isNormalForm = true) (h : c.Integral) (him : i < m) (hmj : m < j)
    (hj : j ≤ c.length) : ∃ c', Yields (p.combine i m j) c () c' ∧ Combined p.grammar i m j c c' ∧
      Yields (p.combine i m j) (c.only .cyk) () (c'.only .cyk) ∧ Yields (p.combine i m j) c' () c' := by
  -- The second time the same is made, and all of it is there.
  have hmixed := h.mixed.putAll fun x (hx : x ∈ p.joined c i m j) => (over_of_joined hx).1
  have hlen := Chart.length_putAll c (p.joined c i m j)
  have hagain := combine_yields (p := p) hmixed him hmj (hlen ▸ hj)
  rw [putAll_joined_again h.mixed him hmj hj] at hagain
  refine ⟨_, combine_yields h.mixed him hmj hj, combined_putAll hg h him hmj hj, ?_, hagain⟩
  rw [only_putAll_joined h.mixed]
  exact combine_yields (h.mixed.mixed_only .cyk) him hmj hj

/-- Let a chart be offered dotted rules and constituents between integers, in any order. A combination of two cells on it
does not fail. It changes no cell but that from `i` to `j` and no dotted rule; there it puts, behind the constituents of
each symbol, those that a rule makes of one on the left and one on the right, unless an equal one is there. The
constituents come out as they do on a chart without the dotted rules, and a second combination adds nothing. -/
theorem combine_shared (hg : g.isNormalForm = true) (start : Option String) {xs : List Item}
    (hxs : ∀ x ∈ xs, x.kind?.isSome = true ∧ x.BetweenIntegers) {n : Nat} (source : String) (him : i < m) (hmj : m < j)
    (hj : j ≤ n) :
    ∃ p c', ofGrammar g start = .ok p ∧
      Yields (p.combine i m j) (Operation.run n source (xs.map .insert)).chart () c' ∧
      Combined g i m j (Operation.run n source (xs.map .insert)).chart c' ∧
      Yields (p.combine i m j) (Operation.run n source ((xs.filter (·.isOf .cyk)).map .insert)).chart () (c'.only .cyk) ∧
      Yields (p.combine i m j) c' () c' := by
  obtain ⟨-, honly⟩ := Operation.mixed_inserts (fun x hx => (hxs x hx).1) n source
  have hintegral : (Operation.run n source (xs.map .insert)).chart.Integral := by
    rw [Operation.run_inserts]
    exact (Chart.integral_empty n).putAll hxs
  have hlen : j ≤ (Operation.run n source (xs.map .insert)).chart.length := by
    rw [Operation.length_run]
    exact hj
  obtain ⟨c', hyields, hcombined, hpart, hagain⟩ :=
    combine_integral (p := ⟨g, start.getD g.start⟩) hg hintegral him hmj hlen
  rw [honly .cyk] at hpart
  exact ⟨_, c', ofGrammar_eq_ok.2 ⟨hg, rfl⟩, hyields, hcombined, hpart, hagain⟩

/-- Two words, with two constituents over the first, a dotted rule beside these, and one of the two joined already. -/
def halfJoined : List Item :=
  let one : Item := .cyk ⟨"S", ["a"]⟩ (.between 0 1) [.word "a"]
  let two : Item := .cyk ⟨"S", ["a"]⟩ (.between 1 2) [.earley ⟨"S", ["a"]⟩ 1 (.between 1 2) [.word "a"]]
  [.earley ⟨"S", ["a"]⟩ 1 (.between 0 1) [.word "a"], one, .cyk ⟨"S", ["S", "S"]⟩ (.between 0 2) [one, two],
    .cyk ⟨"T", ["a", "a"]⟩ (.between 0 2) [.word "a", .word "a"], two, .cyk ⟨"S", ["b"]⟩ (.between 0 1) [.word "b"],
    .earley ⟨"S", ["S", "S"]⟩ 2 (.between 0 2) [one, two]]

/-- The other one is joined, and stands behind the first. -/
theorem combine_shared_halfJoined :
    (Grammar.doubling.isNormalForm = true ∧ ∀ x ∈ halfJoined, x.kind?.isSome = true ∧ x.BetweenIntegers) ∧
      ∃ p c', ofGrammar .doubling none = .ok p ∧
        Yields (p.combine 0 1 2) (Operation.run 2 Chart.logName (halfJoined.map .insert)).chart () c' ∧
        Combined .doubling 0 1 2 (Operation.run 2 Chart.logName (halfJoined.map .insert)).chart c' ∧
        (c'.cell 0 2).map Item.rule? =
          [some ⟨"S", ["S", "S"]⟩, some ⟨"S", ["S", "S"]⟩, some ⟨"T", ["a", "a"]⟩, some ⟨"S", ["S", "S"]⟩] := by
  have hitems : ∀ x ∈ halfJoined, x.kind?.isSome = true ∧ x.BetweenIntegers := by
    intro x hx
    simp only [halfJoined, List.mem_cons, List.not_mem_nil, or_false] at hx
    rcases hx with rfl | rfl | rfl | rfl | rfl | rfl | rfl <;> exact ⟨rfl, _, _, rfl, rfl⟩
  obtain ⟨p, c', hp, hyields, hcombined, -⟩ := combine_shared (i := 0) (m := 1) (j := 2) (n := 2)
    Grammar.isNormalForm_doubling none hitems Chart.logName (by decide) (by decide) (by decide)
  refine ⟨⟨Grammar.isNormalForm_doubling, hitems⟩, p, c', hp, hyields, hcombined, ?_⟩
  obtain ⟨-, rfl⟩ := ofGrammar_eq_ok.1 hp
  obtain ⟨s, hs, rfl⟩ := hyields _ rfl
  have hs := congrArg Prod.snd hs
  subst hs
  decide +kernel

end Cyk

end ParseChart
