import ParseChart.Proofs.Chart.Growth
import ParseChart.Proofs.Cyk.Parses
/-!
# Combinations in other orders

A table may be filled in any order, premature and repeated combinations included, if each split is
combined once more when both of its halves are done with. What the cells hold then does not depend on
the order, and on a full table a combination finds nothing to add.
-/

namespace ParseChart.Cyk

open ChartM

variable {p : Cyk} {g : Grammar} {w : List String} {c d : Chart Item} {i m j : Nat} {x : Item}

/-! ## Full tables -/

theorem Filled.table (h : Filled g w c) : Table g w c := ⟨h.filed, h.length, fun x hx => (h.mem_iff x).1 hx⟩

theorem Filled.mem_cell_iff (h : Filled g w c) : x ∈ c.cell i j ↔ ∃ a t, Derived g w a i j t ∧ x = t.item .cyk i := by
  constructor
  · intro hx
    obtain ⟨a, k, l, t, ht, rfl⟩ := (h.mem_iff x).1 (h.filed.mem_of_cell hx)
    obtain ⟨-, rfl, rfl⟩ := ((ht.item_over .cyk).mem_cell h.filed i j).1 hx
    exact ⟨a, t, ht, rfl⟩
  · rintro ⟨a, t, ht, rfl⟩
    exact ((ht.item_over .cyk).mem_cell h.filed i j).2 ⟨(h.mem_iff _).2 ⟨a, i, j, t, ht, rfl⟩, rfl, rfl⟩

/-- Two full tables differ in no more than the order in their cells. -/
theorem Filled.cell_perm (hc : Filled g w c) (hd : Filled g w d) (i j : Nat) : (c.cell i j).Perm (d.cell i j) :=
  (List.perm_ext_iff_of_nodup hc.filed.nodup_cell hd.filed.nodup_cell).2 fun _ =>
    hc.mem_cell_iff.trans hd.mem_cell_iff.symm

/-- Whatever is joined on a full table is there. -/
theorem Filled.combine_again (h : Filled p.grammar w c) (him : i < m) (hmj : m < j) (hj : j ≤ w.length) :
    Yields (p.combine i m j) c () c := by
  have hcombine := combine_yields (p := p) h.table.mixed him hmj (h.length ▸ hj)
  have hnone : c.newOf (p.joined c i m j) = [] := h.filed.newOf_eq_nil fun x hx => by
    obtain ⟨a, a₁, a₂, t, u, hr, ht, hu, -, -, rfl⟩ := h.table.mem_joined.1 hx
    exact (h.mem_iff _).2 ⟨a, i, j, _, .pair hr ht hu, rfl⟩
  rwa [Chart.putAll_of_newOf_nil hnone] at hcombine

theorem Filled.combineAll_again (h : Filled p.grammar w c) {splits : List (Nat × Nat × Nat)}
    (hs : ∀ s ∈ splits, s.1 < s.2.1 ∧ s.2.1 < s.2.2 ∧ s.2.2 ≤ w.length) :
    Yields (splits.forM fun (i, m, j) => p.combine i m j) c () c := by
  obtain ⟨c', hc', rfl⟩ := yields_forM (fun (i, m, j) => p.combine i m j) splits (fun _ c' => c' = c)
    (fun done s rest c' hsplits hc => by
      obtain ⟨him, hmj, hj⟩ := hs s (by simp [hsplits])
      exact ⟨c, hc ▸ h.combine_again him hmj hj, rfl⟩) rfl
  exact hc'

/-! ## Any order -/

/-- The constituents of the words, in any order, make a table. -/
theorem table_of_lexical {lexical : List Item}
    (hlex : ∀ x, x ∈ lexical ↔ ∃ i b, w[i]? = some b ∧ x ∈ p.lexicalItems i b) :
    Table p.grammar w ((Chart.empty w.length).putAll lexical) ∧
      Worded p.grammar w w.length ((Chart.empty w.length).putAll lexical) := by
  obtain ⟨htable, hmem⟩ := (table_empty p.grammar w).putAll lexical fun x hx => by
    obtain ⟨i, b, hw, hx⟩ := (hlex x).1 hx
    obtain ⟨a, hr, ht, rfl⟩ := mem_lexicalItems.1 hx
    exact ⟨a, _, _, _, .word hr ht hw, rfl⟩
  refine ⟨htable, fun {a b i} _ hr ht hw => (hmem _).2 (.inr ((hlex _).2 ⟨i, b, hw, ?_⟩))⟩
  exact mem_lexicalItems.2 ⟨a, hr, ht, rfl⟩

theorem Table.filled_of_combinedLast (h : Table p.grammar w c) (hwords : Worded p.grammar w w.length c)
    {splits : List (Nat × Nat × Nat)} (hs : ∀ s ∈ splits, s.1 < s.2.1 ∧ s.2.1 < s.2.2 ∧ s.2.2 ≤ w.length)
    (hlast : ∀ i m j, i < m → m < j → j ≤ w.length → CombinedLast splits i m j) :
    ∃ c', Yields (splits.forM fun (i, m, j) => p.combine i m j) c () c' ∧ Filled p.grammar w c' := by
  obtain ⟨c', hc', h', hgrown, hjoined⟩ := h.combineAll splits hs
  refine ⟨c', hc', h'.filed, h'.length, fun x => ⟨h'.derived x, ?_⟩⟩
  rintro ⟨a, i, j, t, ht, rfl⟩
  exact complete_of_joined (fun hi hr ht hw => hgrown _ (hwords hi hr ht hw))
    (fun i m j him hmj hj => hjoined i m j (hlast i m j him hmj hj).final) ht

/-- On the constituents of the words, combinations in which each split comes for the last time after its halves leave
in each cell what a parse leaves there, each item once. On either chart any further combination changes nothing. -/
theorem combine_in_any_order {lexical : List Item}
    (hlex : ∀ x, x ∈ lexical ↔ ∃ i b, w[i]? = some b ∧ x ∈ p.lexicalItems i b) {splits more : List (Nat × Nat × Nat)}
    (hs : ∀ s ∈ splits ++ more, s.1 < s.2.1 ∧ s.2.1 < s.2.2 ∧ s.2.2 ≤ w.length)
    (hlast : ∀ i m j, i < m → m < j → j ≤ w.length → CombinedLast splits i m j) :
    ∃ c s, Yields (splits.forM fun (i, m, j) => p.combine i m j) ((Chart.empty w.length).putAll lexical) () c ∧
      p.parse w = (.ok (), s) ∧
      (∀ i j, i ≤ j → j ≤ w.length → ∃ items items', c.itemsSpanning (.int i) (.int j) = .ok items ∧
        s.chart.itemsSpanning (.int i) (.int j) = .ok items' ∧ items.Nodup ∧ items.Perm items') ∧
      Yields (more.forM fun (i, m, j) => p.combine i m j) c () c ∧
      Yields (more.forM fun (i, m, j) => p.combine i m j) s.chart () s.chart := by
  obtain ⟨htable, hwords⟩ := table_of_lexical hlex
  obtain ⟨c, hc, hfilled⟩ := htable.filled_of_combinedLast hwords (fun s h => hs s (List.mem_append_left _ h)) hlast
  obtain ⟨s, hparse, hfilled'⟩ := parse_filled p w
  have hmore : ∀ s ∈ more, s.1 < s.2.1 ∧ s.2.1 < s.2.2 ∧ s.2.2 ≤ w.length := fun s h =>
    hs s (List.mem_append_right _ h)
  refine ⟨c, s, hc, hparse, fun i j hij hj => ?_, hfilled.combineAll_again hmore, hfilled'.combineAll_again hmore⟩
  exact ⟨_, _, Chart.itemsSpanning_int hij (hfilled.length ▸ hj), Chart.itemsSpanning_int hij (hfilled'.length ▸ hj),
    hfilled.filed.nodup_cell, hfilled.cell_perm hfilled' i j⟩

/-- The splits of three words, one of them too early and then again. -/
def hasty : List (Nat × Nat × Nat) := [(0, 2, 3), (1, 2, 3), (0, 1, 3), (0, 1, 2), (0, 2, 3)]

theorem combinedLast_hasty {i m j : Nat} (him : i < m) (hmj : m < j) (hj : j ≤ 3) : CombinedLast hasty i m j := by
  obtain ⟨rfl, rfl, rfl⟩ | ⟨rfl, rfl, rfl⟩ | ⟨rfl, rfl, rfl⟩ | ⟨rfl, rfl, rfl⟩ :
      (i = 0 ∧ m = 1 ∧ j = 2) ∨ (i = 1 ∧ m = 2 ∧ j = 3) ∨ (i = 0 ∧ m = 1 ∧ j = 3) ∨ (i = 0 ∧ m = 2 ∧ j = 3) := by
    omega
  · exact combinedLast_of_split (hasty.take 3) (hasty.drop 4) rfl (by decide) (by decide)
  · exact combinedLast_of_split (hasty.take 1) (hasty.drop 2) rfl (by decide) (by decide)
  · exact combinedLast_of_split (hasty.take 2) (hasty.drop 3) rfl (by decide) (by decide)
  · exact combinedLast_of_split (hasty.take 4) (hasty.drop 5) rfl (by decide) (by decide)

/-- The constituents of three equal words. -/
def threeWords (p : Cyk) (b : String) : List Item := (List.range 3).flatMap fun i => p.lexicalItems i b

theorem mem_threeWords {b : String} : x ∈ p.threeWords b ↔ ∃ i b', [b, b, b][i]? = some b' ∧ x ∈ p.lexicalItems i b' := by
  unfold threeWords
  simp only [List.mem_flatMap, List.mem_range]
  constructor
  · rintro ⟨i, hi, hx⟩
    refine ⟨i, b, ?_, hx⟩
    match i, hi with
    | 0, _ | 1, _ | 2, _ => rfl
  · rintro ⟨i, b', hb, hx⟩
    match i, hb with
    | 0, hb | 1, hb | 2, hb =>
      cases hb
      exact ⟨_, by decide, hx⟩

theorem combine_in_any_order_doubling :
    ((∀ x, x ∈ threeWords ⟨.doubling, "S"⟩ "a" ↔
          ∃ i b, ["a", "a", "a"][i]? = some b ∧ x ∈ lexicalItems ⟨.doubling, "S"⟩ i b) ∧
        (∀ s ∈ hasty ++ [(0, 1, 2)], s.1 < s.2.1 ∧ s.2.1 < s.2.2 ∧ s.2.2 ≤ 3) ∧
        ∀ i m j, i < m → m < j → j ≤ 3 → CombinedLast hasty i m j) ∧
      ∃ c s, Yields (hasty.forM fun (i, m, j) => combine ⟨.doubling, "S"⟩ i m j)
          ((Chart.empty 3).putAll (threeWords ⟨.doubling, "S"⟩ "a")) () c ∧
        parse ⟨.doubling, "S"⟩ ["a", "a", "a"] = (.ok (), s) ∧
        (∀ i j : Nat, i ≤ j → j ≤ 3 → ∃ items items', c.itemsSpanning (.int i) (.int j) = .ok items ∧
          s.chart.itemsSpanning (.int i) (.int j) = .ok items' ∧ items.Nodup ∧ items.Perm items') ∧
        Yields ([((0 : Nat), (1 : Nat), (2 : Nat))].forM fun (i, m, j) => combine ⟨.doubling, "S"⟩ i m j) c () c := by
  have hs : ∀ s ∈ hasty ++ [(0, 1, 2)], s.1 < s.2.1 ∧ s.2.1 < s.2.2 ∧ s.2.2 ≤ 3 := by decide
  obtain ⟨c, s, hc, hparse, hcells, hmore, -⟩ := combine_in_any_order (p := ⟨.doubling, "S"⟩)
    (fun _ => mem_threeWords) hs (fun _ _ _ => combinedLast_hasty)
  exact ⟨⟨fun _ => mem_threeWords, hs, fun _ _ _ => combinedLast_hasty⟩, c, s, hc, hparse, hcells, hmore⟩

end ParseChart.Cyk
