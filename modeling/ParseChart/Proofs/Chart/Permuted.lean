import Mathlib.Data.List.Forall2
import ParseChart.Proofs.Chart.Answers
import ParseChart.Proofs.Chart.Duplicates
/-!
# Insertions in another order

Of twins among the items that it admits, a chart keeps one. Which one that is, and where it stands, depends
on the order of the insertions, but what the chart counts and finds does not, and what it lists is the same
but for order and the choice among equals.
-/

namespace ParseChart

open ChartItem

/-! ## Lists with one of each class -/

/-- Two lists with no two related elements, each related to one of the other, are related one by one in some order. -/
theorem exists_perm_forall₂ {α : Type} {R : α → α → Prop} (hsymm : ∀ {x y}, R x y → R y x)
    (htrans : ∀ {x y z}, R x y → R y z → R x z) {xs ys : List α} (hxs : xs.Pairwise fun x y => ¬ R x y)
    (hys : ys.Pairwise fun x y => ¬ R x y) (hxy : ∀ x ∈ xs, ∃ y ∈ ys, R x y) (hyx : ∀ y ∈ ys, ∃ x ∈ xs, R x y) :
    ∃ zs, xs.Perm zs ∧ List.Forall₂ R zs ys := by
  induction ys generalizing xs with
  | nil =>
    cases xs with
    | nil => exact ⟨[], .nil, .nil⟩
    | cons x xs =>
      obtain ⟨y, hy, -⟩ := hxy x (by simp)
      cases hy
  | cons y ys ih =>
    obtain ⟨x, hx, hr⟩ := hyx y (by simp)
    obtain ⟨before, after, rfl⟩ := List.append_of_mem hx
    have hperm : (before ++ x :: after).Perm (x :: (before ++ after)) := List.perm_middle
    have hxs' := (hperm.pairwise_iff fun {a b} h h' => h (hsymm h')).1 hxs
    obtain ⟨hxne, hrest⟩ := List.pairwise_cons.1 hxs'
    obtain ⟨hyne, hys⟩ := List.pairwise_cons.1 hys
    -- What is left on either side is related to neither of the two that are paired off.
    obtain ⟨zs, hzs, hall⟩ := ih hrest hys
      (fun a ha => by
        obtain ⟨b, hb, hab⟩ := hxy a (hperm.symm.subset (List.mem_cons_of_mem x ha))
        rcases List.mem_cons.1 hb with rfl | hb
        · exact absurd (htrans hr (hsymm hab)) (hxne a ha)
        · exact ⟨b, hb, hab⟩)
      (fun b hb => by
        obtain ⟨a, ha, hab⟩ := hyx b (List.mem_cons_of_mem y hb)
        rcases List.mem_cons.1 (hperm.subset ha) with rfl | ha
        · exact absurd (htrans (hsymm hr) hab) (hyne b hb)
        · exact ⟨a, ha, hab⟩)
    exact ⟨x :: zs, hperm.trans (hzs.cons x), .cons hr hall⟩

variable {ι : Type} [ChartItem ι]

/-- The lists hold the same items but for their order, equal items being one. -/
def SameItems (xs ys : List ι) : Prop := ∃ zs, xs.Perm zs ∧ List.Forall₂ (fun x y => (x == y) = true) zs ys

theorem SameItems.length_eq {xs ys : List ι} (h : SameItems xs ys) : xs.length = ys.length := by
  obtain ⟨zs, hperm, hall⟩ := h
  exact hperm.length_eq.trans hall.length_eq

namespace Chart

variable {c d : Chart ι} {n : Nat} {x y : ι} {xs ys : List ι} {p : Place}

/-! ## Charts with the same twins -/

theorem pairwise_row {α : Type} {R : α → α → Prop} {rows : List (Row α)} (h : (rows.flatMap Buckets.elems).Pairwise R) (i : Nat) :
    (rows.getD i []).elems.Pairwise R := by
  by_cases hi : i < rows.length
  · have hrow : (rows.getD i []).elems.Sublist (rows.flatMap Buckets.elems) := by
      rw [List.getD_eq_getElem?_getD, List.getElem?_eq_getElem hi, Option.getD_some, List.flatMap_def]
      exact List.sublist_flatten_of_mem (List.mem_map_of_mem (List.getElem_mem hi))
    exact h.sublist hrow
  · rw [List.getD_eq_getElem?_getD, List.getElem?_eq_none (by omega), Option.getD_none]
    exact .nil

theorem Filed.pairwise_rowFrom (h : c.Filed) (hd : c.Distinct) (i : Nat) :
    (c.rowFrom i).elems.Pairwise fun x y => ¬ Twin x y :=
  pairwise_row (h.pairwise_outgoing hd) i

theorem Filed.pairwise_rowTo (h : c.Filed) (hd : c.Distinct) (j : Nat) :
    (c.rowTo j).elems.Pairwise fun x y => ¬ Twin x y :=
  pairwise_row (h.pairwise_incoming hd) j

/-- Two charts of one length, with a twin on the one of each item on the other. -/
structure Twins (c d : Chart ι) : Prop where
  length : c.length = d.length
  filed : c.Filed ∧ d.Filed
  distinct : c.Distinct ∧ d.Distinct
  right : ∀ x ∈ c, ∃ y, y ∈ d ∧ Twin x y
  left : ∀ y ∈ d, ∃ x, x ∈ c ∧ Twin x y

theorem Twins.symm (h : c.Twins d) : d.Twins c where
  length := h.length.symm
  filed := h.filed.symm
  distinct := h.distinct.symm
  right y hy := by
    obtain ⟨x, hx, htwin⟩ := h.left y hy
    exact ⟨x, hx, htwin.symm⟩
  left x hx := by
    obtain ⟨y, hy, htwin⟩ := h.right x hx
    exact ⟨y, hy, htwin.symm⟩

theorem Twins.mem_rowFrom (h : c.Twins d) {i : Nat} (hx : x ∈ (c.rowFrom i).elems) :
    ∃ y ∈ (d.rowFrom i).elems, Twin x y := by
  obtain ⟨p, hp, rfl, -⟩ := h.filed.1.of_from i x hx
  obtain ⟨y, hy, htwin⟩ := h.right x (h.filed.1.mem_of_rowFrom hx)
  obtain ⟨q, hq⟩ := h.filed.2.place_of_mem hy
  have hpq := (place_eq_of_beq htwin.1 ((place_congr h.length x).symm.trans hp) hq).1
  exact ⟨y, (h.filed.2.mem_rowFrom hq _).2 ⟨hy, hpq.symm⟩, htwin⟩

theorem Twins.mem_rowTo (h : c.Twins d) {j : Nat} (hx : x ∈ (c.rowTo j).elems) :
    ∃ y ∈ (d.rowTo j).elems, Twin x y := by
  obtain ⟨p, hp, rfl, -⟩ := h.filed.1.of_to j x hx
  obtain ⟨y, hy, htwin⟩ := h.right x ⟨p.stop, hx⟩
  obtain ⟨q, hq⟩ := h.filed.2.place_of_mem hy
  have hpq := (place_eq_of_beq htwin.1 ((place_congr h.length x).symm.trans hp) hq).2
  exact ⟨y, (h.filed.2.mem_rowTo hq _).2 ⟨hy, hpq.symm⟩, htwin⟩

theorem sameItems_of_twins (hxs : xs.Pairwise fun x y => ¬ Twin x y) (hys : ys.Pairwise fun x y => ¬ Twin x y)
    (hxy : ∀ x ∈ xs, ∃ y ∈ ys, Twin x y) (hyx : ∀ y ∈ ys, ∃ x ∈ xs, Twin x y) : SameItems xs ys := by
  obtain ⟨zs, hperm, hall⟩ := exists_perm_forall₂ (R := Twin) Twin.symm Twin.trans hxs hys hxy hyx
  exact ⟨zs, hperm, hall.imp fun _ _ htwin => htwin.1⟩

theorem Twins.sameItems_from (h : c.Twins d) (i : Nat) {q : ι → Bool} (hq : ∀ x y, (x == y) = true → q x = q y) :
    SameItems ((c.rowFrom i).elems.filter q) ((d.rowFrom i).elems.filter q) := by
  refine sameItems_of_twins ((h.filed.1.pairwise_rowFrom h.distinct.1 i).filter q)
    ((h.filed.2.pairwise_rowFrom h.distinct.2 i).filter q) (fun x hx => ?_) fun y hy => ?_
  · obtain ⟨hx, hqx⟩ := List.mem_filter.1 hx
    obtain ⟨y, hy, htwin⟩ := h.mem_rowFrom hx
    exact ⟨y, List.mem_filter.2 ⟨hy, hq x y htwin.1 ▸ hqx⟩, htwin⟩
  · obtain ⟨hy, hqy⟩ := List.mem_filter.1 hy
    obtain ⟨x, hx, htwin⟩ := h.symm.mem_rowFrom hy
    exact ⟨x, List.mem_filter.2 ⟨hx, hq y x htwin.1 ▸ hqy⟩, htwin.symm⟩

theorem Twins.sameItems_to (h : c.Twins d) (j : Nat) : SameItems (c.rowTo j).elems (d.rowTo j).elems := by
  refine sameItems_of_twins (h.filed.1.pairwise_rowTo h.distinct.1 j) (h.filed.2.pairwise_rowTo h.distinct.2 j)
    (fun x hx => h.mem_rowTo hx) fun y hy => ?_
  obtain ⟨x, hx, htwin⟩ := h.symm.mem_rowTo hy
  exact ⟨x, hx, htwin.symm⟩

/-! ## What such charts answer -/

theorem Twins.countTo_eq (h : c.Twins d) (stop : Value) : c.countTo stop = d.countTo stop := by
  unfold countTo itemsTo
  rw [index_congr h.length]
  cases d.index stop with
  | error cause => rfl
  | ok j => exact congrArg Except.ok (h.sameItems_to j).length_eq

theorem Twins.itemCount_eq (h : c.Twins d) : c.itemCount = d.itemCount := by
  have hcounts : c.counts = d.counts := by
    apply List.ext_getElem
    · simp [counts, h.filed.1.incoming_length, h.filed.2.incoming_length, h.length]
    · intro j hj hj'
      have hrow := (h.sameItems_to j).length_eq
      simp only [counts, List.length_map] at hj hj'
      simpa [counts, rowTo, List.getD_eq_getElem?_getD, hj, hj'] using hrow
  rw [itemCount, itemCount, hcounts]

theorem Twins.holds_of_holds (h : c.Twins d) (hp : c.place x = .ok p) (hx : c.holds p x = true) : d.holds p x = true := by
  obtain ⟨u, hu, htwin⟩ := (h.filed.1.holds_iff_twin hp).1 hx
  obtain ⟨v, hv, htwin'⟩ := h.right u hu
  have hvx := htwin'.symm.trans htwin
  exact (h.filed.2.holds_iff_twin ((place_congr h.length x).symm.trans hp)).2 ⟨v, hv, hvx⟩

theorem Twins.contains_eq (h : c.Twins d) (x : ι) : c.contains x = d.contains x := by
  unfold contains
  rw [place_congr h.length]
  cases hp : d.place x with
  | error cause => rfl
  | ok p =>
    have hholds : c.holds p x = d.holds p x := by
      rw [Bool.eq_iff_iff]
      exact ⟨h.holds_of_holds ((place_congr h.length x).trans hp), h.symm.holds_of_holds hp⟩
    exact congrArg Except.ok hholds

/-- Either both refuse the span for the same reason, or they list the same items. -/
theorem Twins.itemsSpanning (h : c.Twins d) (start stop : Value) :
    (∃ cause, c.itemsSpanning start stop = .error cause ∧ d.itemsSpanning start stop = .error cause) ∨
      ∃ items items', c.itemsSpanning start stop = .ok items ∧ d.itemsSpanning start stop = .ok items' ∧
        SameItems items items' := by
  unfold Chart.itemsSpanning
  rw [position_congr h.length start, position_congr h.length stop, index_congr h.length, h.length]
  cases d.position start with
  | error cause => exact .inl ⟨cause, rfl, rfl⟩
  | ok i =>
    cases d.position stop with
    | error cause => exact .inl ⟨cause, rfl, rfl⟩
    | ok j =>
      simp only [bind, Except.bind]
      split
      · cases d.index start with
        | error cause => exact .inl ⟨cause, rfl, rfl⟩
        | ok row =>
          refine .inr ⟨_, _, rfl, rfl, h.sameItems_from row fun x y he => ?_⟩
          have hstop := stop_beq he
          cases hx : stop? x <;> cases hy : stop? y <;> simp_all
          exact BEq.congr_left hstop
      · exact .inl ⟨_, rfl, rfl⟩

/-! ## Charts of offered items -/

theorem mem_of_mem_putAll (hx : x ∈ (empty n).putAll xs) : x ∈ xs :=
  newOf_subset (((filed_empty n).mem_putAll.1 hx).resolve_left (not_mem_empty n x))

/-- An admitted item has a twin on the chart, whenever it was offered. -/
theorem Filed.exists_twin_of_offered (h : c.Filed) (hx : x ∈ xs) (hp : c.place x = .ok p) :
    ∃ u, u ∈ c.putAll xs ∧ Twin u x := by
  obtain ⟨before, after, rfl⟩ := List.append_of_mem hx
  have hf := h.putAll before
  obtain ⟨u, hu, htwin⟩ := hf.exists_twin_put ((place_congr (length_putAll _ _) x).trans hp)
  rw [putAll_append]
  exact ⟨u, (hf.put x).mem_putAll.2 (.inl hu), htwin⟩

/-- Nothing is new of what has twins on the chart. -/
theorem Filed.newOf_eq_nil_of_twins (h : c.Filed) (hxs : ∀ x ∈ xs, ∃ u, u ∈ c ∧ Twin u x) : c.newOf xs = [] := by
  induction xs with
  | nil => rfl
  | cons x xs ih =>
    have hadds : c.adds x = false := by
      cases hp : c.place x with
      | error cause => exact (put_of_error hp).2
      | ok p =>
        rw [adds_of_place hp, Bool.not_eq_false', h.holds_iff_twin hp]
        exact hxs x (by simp)
    rw [newOf, hadds, put_of_not_adds hadds]
    exact ih fun y hy => hxs y (List.mem_cons_of_mem x hy)

/-- All that matters of the offered items is which there are. -/
theorem twins_of_mem_iff (h : ∀ x, x ∈ xs ↔ x ∈ ys) (n : Nat) :
    ((empty n).putAll xs).Twins ((empty n).putAll ys) := by
  have hright : ∀ {xs ys : List ι}, (∀ x, x ∈ xs ↔ x ∈ ys) → ∀ x ∈ (empty n).putAll xs,
      ∃ y, y ∈ (empty n).putAll ys ∧ Twin x y := fun {xs ys} h x hx => by
    obtain ⟨p, hp⟩ := ((filed_empty n).putAll xs).place_of_mem hx
    obtain ⟨y, hy, htwin⟩ := (filed_empty n).exists_twin_of_offered ((h x).1 (mem_of_mem_putAll hx))
      ((place_congr (length_putAll (empty n) xs) x).symm.trans hp)
    exact ⟨y, hy, htwin.symm⟩
  have hf : (empty n : Chart ι).Filed := filed_empty n
  have hd : (empty n : Chart ι).Distinct := distinct_empty n
  refine ⟨by rw [length_putAll, length_putAll], ⟨hf.putAll xs, hf.putAll ys⟩,
    ⟨hf.distinct_putAll hd xs, hf.distinct_putAll hd ys⟩, hright h, fun y hy => ?_⟩
  obtain ⟨x, hx, htwin⟩ := hright (fun x => (h x).symm) y hy
  exact ⟨x, hx, htwin.symm⟩

end Chart

namespace Operation

/-- Two charts that were offered the same items in different orders have the same number of items, also at each
position; they give the same answer to whether an item is there, and list the same items between two positions. -/
theorem insertions_in_any_order {xs ys : List ι} (h : xs.Perm ys) (n : Nat) (source : String) :
    (run n source (xs.map .insert)).chart.itemCount = (run n source (ys.map .insert)).chart.itemCount ∧
      (∀ stop, (run n source (xs.map .insert)).chart.countTo stop = (run n source (ys.map .insert)).chart.countTo stop) ∧
      (∀ x, (run n source (xs.map .insert)).chart.contains x = (run n source (ys.map .insert)).chart.contains x) ∧
      ∀ start stop,
        (∃ cause, (run n source (xs.map .insert)).chart.itemsSpanning start stop = .error cause ∧
          (run n source (ys.map .insert)).chart.itemsSpanning start stop = .error cause) ∨
        ∃ items items', (run n source (xs.map .insert)).chart.itemsSpanning start stop = .ok items ∧
          (run n source (ys.map .insert)).chart.itemsSpanning start stop = .ok items' ∧ SameItems items items' := by
  have htwins := Chart.twins_of_mem_iff (fun _ => h.mem_iff) n
  rw [run_inserts, run_inserts]
  exact ⟨htwins.itemCount_eq, htwins.countTo_eq, htwins.contains_eq, htwins.itemsSpanning⟩

/-- Equal constituents, and equal items over them, in two ways of writing their positions. -/
def twoSpellings : List Item :=
  [overWord (.between 0 1), overWord ⟨.bool false, .bool true⟩, overChild (.between 0 1),
    overChild ⟨.bool false, .bool true⟩]

/-- From behind the other one of the two equal items is kept. -/
theorem insertions_in_any_order_twoSpellings :
    twoSpellings.Perm twoSpellings.reverse ∧
      (run 1 Chart.logName (twoSpellings.map .insert)).chart.itemCount = 3 ∧
      (run 1 Chart.logName (twoSpellings.reverse.map .insert)).chart.itemCount = 3 ∧
      ∃ items items', (run 1 Chart.logName (twoSpellings.map .insert)).chart.itemsSpanning (.int 0) (.int 1) = .ok items ∧
        (run 1 Chart.logName (twoSpellings.reverse.map .insert)).chart.itemsSpanning (.int 0) (.int 1) = .ok items' ∧
        SameItems items items' := by
  have hperm : twoSpellings.Perm twoSpellings.reverse := (List.reverse_perm _).symm
  obtain ⟨hcount, -, -, hcells⟩ := insertions_in_any_order hperm 1 Chart.logName
  have hthree : (run 1 Chart.logName (twoSpellings.map .insert)).chart.itemCount = 3 := rfl
  refine ⟨hperm, hthree, hcount.symm.trans hthree, ?_⟩
  obtain ⟨cause, hcause, -⟩ | hitems := hcells (.int 0) (.int 1)
  · cases hcause
  · exact hitems

end Operation

end ParseChart
