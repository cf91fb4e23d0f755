import Mathlib.Data.List.Nodup
import ParseChart.Proofs.Chart.Answers
import ParseChart.Proofs.Chart.Twins
/-!
# The cells of a chart

An item stands in one cell, that of its two positions. So the cells with one start make up the row from
there, the cells with one stop make up the row to there, and the items are the same number whether they are
counted by cells, by starts or by stops.
-/

namespace ParseChart

open ChartItem

variable {ι : Type} [ChartItem ι]

namespace Chart

variable {c : Chart ι} {x : ι} {p : Place}

theorem Filed.mem_cell_of_place (h : c.Filed) (hx : x ∈ c) (hp : c.place x = .ok p) (i j : Nat) :
    x ∈ c.cell i j ↔ p.start = i ∧ p.stop = j := by
  rw [h.mem_cell, h.mem_rowFrom hp, h.mem_rowTo hp]
  constructor
  · rintro ⟨⟨-, hi⟩, -, hj⟩
    exact ⟨hi, hj⟩
  · rintro ⟨hi, hj⟩
    exact ⟨⟨hx, hi⟩, hx, hj⟩

theorem Filed.exists_cell (h : c.Filed) (hx : x ∈ c) :
    ∃ i j, i ≤ j ∧ j ≤ c.length ∧ ∀ k l, x ∈ c.cell k l ↔ i = k ∧ j = l := by
  obtain ⟨p, hp⟩ := h.place_of_mem hx
  obtain ⟨-, -, -, hle, hlen⟩ := place_eq_ok hp
  exact ⟨p.start, p.stop, hle, hlen, h.mem_cell_of_place hx hp⟩

/-- Two cells that share an item are one. -/
theorem Filed.cell_unique (h : c.Filed) {i j k l : Nat} (hx : x ∈ c.cell i j) (hx' : x ∈ c.cell k l) :
    i = k ∧ j = l := by
  obtain ⟨a, b, -, -, hcell⟩ := h.exists_cell (h.mem_of_cell hx)
  obtain ⟨rfl, rfl⟩ := (hcell i j).1 hx
  exact (hcell k l).1 hx'

/-! ## Rows made up of cells -/

/-- Lists that share nothing make up the list of what they hold. -/
theorem perm_flatMap {α : Type} {f : Nat → List α} {ks : List Nat} {xs : List α} (hks : ks.Nodup)
    (hf : ∀ k, (f k).Nodup) (hone : ∀ k l x, x ∈ f k → x ∈ f l → k = l) (hxs : xs.Nodup)
    (hmem : ∀ x, x ∈ xs ↔ ∃ k ∈ ks, x ∈ f k) : (ks.flatMap f).Perm xs := by
  have hnodup : (ks.flatMap f).Nodup := by
    rw [List.nodup_flatMap]
    refine ⟨fun k _ => hf k, hks.imp ?_⟩
    intro k l hne x hk hl
    exact hne (hone k l x hk hl)
  rw [List.perm_ext_iff_of_nodup hnodup hxs]
  intro x
  rw [hmem, List.mem_flatMap]

theorem Filed.cells_from_perm (h : c.Filed) (i : Nat) :
    ((List.range' i (c.length + 1 - i)).flatMap (c.cell i)).Perm (c.rowFrom i).elems := by
  refine perm_flatMap List.nodup_range' (fun _ => h.nodup_cell) ?_ (h.nodup_from i) ?_
  · intro j l x hj hl
    exact (h.cell_unique hj hl).2
  · intro x
    constructor
    · intro hx
      obtain ⟨p, hp, rfl, -⟩ := h.of_from i x hx
      obtain ⟨-, -, -, hle, hlen⟩ := place_eq_ok hp
      refine ⟨p.stop, ?_, (h.mem_cell_of_place (h.mem_of_rowFrom hx) hp _ _).2 ⟨rfl, rfl⟩⟩
      rw [List.mem_range'_1]
      omega
    · rintro ⟨j, -, hx⟩
      exact (h.mem_cell.1 hx).1

theorem Filed.cells_to_perm (h : c.Filed) (j : Nat) :
    ((List.range (j + 1)).flatMap fun i => c.cell i j).Perm (c.rowTo j).elems := by
  refine perm_flatMap List.nodup_range (fun _ => h.nodup_cell) ?_ (h.nodup_to j) ?_
  · intro i k x hi hk
    exact (h.cell_unique hi hk).1
  · intro x
    constructor
    · intro hx
      obtain ⟨p, hp, rfl, -⟩ := h.of_to j x hx
      obtain ⟨-, -, -, hle, -⟩ := place_eq_ok hp
      refine ⟨p.start, ?_, (h.mem_cell_of_place ⟨p.stop, hx⟩ hp _ _).2 ⟨rfl, rfl⟩⟩
      rw [List.mem_range]
      omega
    · rintro ⟨i, -, hx⟩
      exact (h.mem_cell.1 hx).2

/-! ## Numbers of items -/

theorem size_eq_sum {α : Type} {rows : List (Row α)} {n : Nat} (hlen : rows.length = n + 1) :
    size rows = ((List.range (n + 1)).map fun i => (rows.getD i []).elems.length).sum := by
  have hrows : rows = (List.range (n + 1)).map fun i => rows.getD i [] := by
    apply List.ext_getElem
    · simp [hlen]
    · intro i hi hi'
      simp [List.getD_eq_getElem?_getD, hi]
  unfold size
  conv_lhs => rw [hrows, List.map_map]
  congr 1
  apply List.map_congr_left
  intro i _
  exact List.length_flatMap.symm

theorem Filed.itemCount_eq_sum (h : c.Filed) (hsize : c.itemCount = size c.outgoing) :
    c.itemCount = ((List.range (c.length + 1)).map fun i => (c.rowFrom i).elems.length).sum := by
  rw [hsize]
  exact size_eq_sum h.outgoing_length

theorem Filed.length_rowFrom (h : c.Filed) (i : Nat) :
    (c.rowFrom i).elems.length = ((List.range' i (c.length + 1 - i)).map fun j => (c.cell i j).length).sum := by
  rw [← (h.cells_from_perm i).length_eq, List.length_flatMap]

/-! ## Queries -/

/-- How the lists that a chart answers go together: `cell i j` between two positions, `leaving i` from one and
`reaching j` to one. Positions may be given as integers of either kind. -/
structure Partition (c : Chart ι) (cell : Nat → Nat → List ι) (leaving reaching : Nat → List ι) : Prop where
  spanning_eq : ∀ {u v : Value} {i j : Nat}, u.int? = some (i : Int) → v.int? = some (j : Int) → i ≤ j → j ≤ c.length →
    c.itemsSpanning u v = .ok (cell i j)
  from_eq : ∀ {u : Value} {i : Nat}, u.int? = some (i : Int) → i ≤ c.length → c.itemsFrom u = .ok (leaving i)
  to_eq : ∀ {v : Value} {j : Nat}, v.int? = some (j : Int) → j ≤ c.length →
    c.itemsTo v = .ok (reaching j) ∧ c.countTo v = .ok (reaching j).length
  sublist : ∀ i j, i ≤ j → j ≤ c.length → cell i j = (leaving i).filter (stopsAt j)
  rows_from : ∀ i, i ≤ c.length → ((List.range' i (c.length + 1 - i)).flatMap (cell i)).Perm (leaving i)
  rows_to : ∀ j, j ≤ c.length → ((List.range (j + 1)).flatMap fun i => cell i j).Perm (reaching j)
  nodup : ∀ i j, i ≤ j → j ≤ c.length → (cell i j).Nodup
  one_cell : ∀ x k, k ≤ c.length → x ∈ leaving k ∨ x ∈ reaching k →
    ∃ i j, i ≤ j ∧ j ≤ c.length ∧ ∀ k l, k ≤ l → l ≤ c.length → (x ∈ cell k l ↔ i = k ∧ j = l)
  count_cells : ((List.range (c.length + 1)).map fun i =>
    ((List.range' i (c.length + 1 - i)).map fun j => (cell i j).length).sum).sum = c.itemCount
  count_rows : ((List.range (c.length + 1)).map fun i => (leaving i).length).sum = c.itemCount

theorem Filed.partition (h : c.Filed) (hsize : c.itemCount = size c.outgoing) :
    c.Partition c.cell (fun i => (c.rowFrom i).elems) fun j => (c.rowTo j).elems where
  spanning_eq := itemsSpanning_of_int?
  from_eq := itemsFrom_of_int?
  to_eq hv hj := by
    have hitems := itemsTo_of_int? hv hj
    refine ⟨hitems, ?_⟩
    unfold countTo
    rw [hitems]
    rfl
  sublist _ _ _ _ := rfl
  rows_from i _ := h.cells_from_perm i
  rows_to j _ := h.cells_to_perm j
  nodup _ _ _ _ := h.nodup_cell
  one_cell x k _ hx := by
    have hmem : x ∈ c := hx.elim h.mem_of_rowFrom fun hx => ⟨k, hx⟩
    obtain ⟨i, j, hij, hj, hcell⟩ := h.exists_cell hmem
    exact ⟨i, j, hij, hj, fun k l _ _ => hcell k l⟩
  count_cells := by
    rw [h.itemCount_eq_sum hsize]
    congr 1
    apply List.map_congr_left
    intro i _
    exact (h.length_rowFrom i).symm
  count_rows := (h.itemCount_eq_sum hsize).symm

end Chart

/-- At each moment of a run: between two positions stand, in order, those items from the first that stop at the second,
and for all second ones together these use up the items from the first. For all first ones together they are the items
to the second, in some order. Each stored item stands in one cell, once, and there are as many of them by cells, by
starts and by stops. -/
theorem Operation.queries_partition (n : Nat) (source : String) (ops : List (Operation ι)) :
    (run n source ops).chart.length = n ∧
      ∃ cell leaving reaching, (run n source ops).chart.Partition cell leaving reaching := by
  obtain ⟨xs, hc, -⟩ := run_eq_putAll n source ops
  have hsize := (Chart.sound_putAll n xs).1.size
  rw [← hc] at hsize
  exact ⟨length_run n source ops, _, _, _, (filed_run n source ops).1.partition hsize⟩

end ParseChart
