import ParseChart.Chart.Query
import ParseChart.Proofs.Chart.Filing
/-!
# What charts answer

Between positions on the chart each query is one row or a filter of one.
-/

namespace ParseChart

open ChartItem

variable {ι : Type}

namespace Chart

/-! ## Rows -/

section Rows

variable {c : Chart ι} {i j : Nat}

theorem number?_of_int? {u : Value} {n : Int} (h : u.int? = some n) : u.number? = some (.finite n) := by
  cases u with
  | int a =>
    cases h
    rfl
  | bool b =>
    cases h
    show some (Extended.finite (b.toNat : Rat)) = _
    rw [Rat.intCast_natCast]
  | _ => cases h

/-- An integer of either kind on the chart names its row. -/
theorem index_of_int? {u : Value} (hu : u.int? = some (j : Int)) (hj : j ≤ c.length) :
    c.position u = .ok (.finite (j : Int)) ∧ c.index u = .ok j := by
  have hpos : c.position u = .ok (.finite (j : Int)) := by
    have h0 : (Extended.finite 0).le (.finite (j : Int)) = true := decide_eq_true (Rat.intCast_nonneg.2 (by omega))
    have hl : (Extended.finite (j : Int)).le (.finite c.length) = true :=
      decide_eq_true (Rat.intCast_le_intCast.2 (by omega))
    unfold position
    rw [number?_of_int? hu]
    show (if ((Extended.finite 0).le (.finite (j : Int)) && (Extended.finite (j : Int)).le (.finite c.length)) = true
      then _ else _) = _
    rw [h0, hl]
    rfl
  refine ⟨hpos, ?_⟩
  unfold index
  rw [hpos, hu]
  rfl

theorem position_congr {d : Chart ι} (h : c.length = d.length) (given : Value) : c.position given = d.position given := by
  unfold position
  rw [h]

theorem index_congr {d : Chart ι} (h : c.length = d.length) (given : Value) : c.index given = d.index given := by
  unfold index
  rw [position_congr h]

theorem itemsFrom_of_int? {u : Value} (hu : u.int? = some (i : Int)) (hi : i ≤ c.length) :
    c.itemsFrom u = .ok (c.rowFrom i).elems := by
  unfold itemsFrom
  rw [(index_of_int? hu hi).2]
  rfl

theorem itemsTo_of_int? {v : Value} (hv : v.int? = some (j : Int)) (hj : j ≤ c.length) :
    c.itemsTo v = .ok (c.rowTo j).elems := by
  unfold itemsTo
  rw [(index_of_int? hv hj).2]
  rfl

theorem itemsTo_int (hj : j ≤ c.length) : c.itemsTo (.int j) = .ok (c.rowTo j).elems := itemsTo_of_int? rfl hj

theorem select_eq_ok {question : ι → Option Bool} {items : List ι}
    (h : ∀ x ∈ items, (question x).isSome = true) :
    select question items = .ok (items.filter fun x => question x == some true) := by
  unfold select
  rw [if_pos (List.all_eq_true.2 h)]

end Rows

/-! ## Cells -/

variable [ChartItem ι]

/-- The items from `i` to `j`. -/
def cell (c : Chart ι) (i j : Nat) : List ι := (c.rowFrom i).elems.filter (stopsAt j)

variable {c : Chart ι} {i j : Nat}

theorem Filed.nodup_cell (h : c.Filed) : (c.cell i j).Nodup := (h.nodup_from i).filter _

theorem Filed.mem_cell (h : c.Filed) {x : ι} :
    x ∈ c.cell i j ↔ x ∈ (c.rowFrom i).elems ∧ x ∈ (c.rowTo j).elems := by
  unfold cell
  rw [List.mem_filter]
  apply and_congr_right
  intro hx
  obtain ⟨p, hp, -, ht⟩ := h.of_from i x hx
  rw [stopsAt_iff hp, h.mem_rowTo hp]
  exact ⟨fun hs => ⟨⟨_, ht⟩, hs⟩, And.right⟩

theorem Filed.mem_of_cell (h : c.Filed) {x : ι} (hx : x ∈ c.cell i j) : x ∈ c := ⟨j, (h.mem_cell.1 hx).2⟩

end Chart

theorem ChartItem.Over.mem_cell [ChartItem ι] {x : ι} {c : Chart ι} {i j : Nat} (h : Over x i j) (hc : c.Filed) (k l : Nat) :
    x ∈ c.cell k l ↔ x ∈ c ∧ i = k ∧ j = l := by
  rw [hc.mem_cell, h.mem_rowFrom hc, h.mem_rowTo hc]
  exact ⟨fun ⟨⟨hx, hi⟩, _, hj⟩ => ⟨hx, hi, hj⟩, fun ⟨hx, hi, hj⟩ => ⟨⟨hx, hi⟩, hx, hj⟩⟩

namespace Chart

variable [ChartItem ι] {c : Chart ι} {i j : Nat}

theorem itemsSpanning_of_int? {u v : Value} (hu : u.int? = some (i : Int)) (hv : v.int? = some (j : Int)) (hij : i ≤ j)
    (hj : j ≤ c.length) : c.itemsSpanning u v = .ok (c.cell i j) := by
  have hi : i ≤ c.length := by omega
  have hle : (Extended.finite (i : Int)).le (.finite (j : Int)) = true :=
    decide_eq_true (Rat.intCast_le_intCast.2 (by omega))
  have hv' : (v == .int j) = true := by rw [beq_int_of_int? hv, decide_eq_true_iff]
  have hstop : ∀ x : ι, stopsAt j x = (stop? x).any (· == v) := by
    intro x
    unfold ChartItem.stopsAt
    cases stop? x with
    | none => rfl
    | some w => exact (BEq.congr_right hv').symm
  have hcell : c.cell i j = (c.rowFrom i).elems.filter fun x => (stop? x).any (· == v) :=
    List.filter_congr fun x _ => hstop x
  simp only [itemsSpanning, (index_of_int? hu hi).1, (index_of_int? hu hi).2, (index_of_int? hv hj).1, hcell]
  exact if_pos hle

theorem itemsSpanning_int (hij : i ≤ j) (hj : j ≤ c.length) :
    c.itemsSpanning (.int i) (.int j) = .ok (c.cell i j) := itemsSpanning_of_int? rfl rfl hij hj

end Chart

end ParseChart
