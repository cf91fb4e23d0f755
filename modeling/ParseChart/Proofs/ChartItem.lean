import ParseChart.ChartItem
/-!
# The ends of items

Where an item starts and stops, asked of items of any class.
-/

namespace ParseChart.ChartItem

variable {ι : Type} [ChartItem ι] {x y : ι} {i j : Nat}

def startsAt (i : Nat) (x : ι) : Bool := (start? x).any (· == .int i)

def stopsAt (j : Nat) (x : ι) : Bool := (stop? x).any (· == .int j)

def named (id : Value) (x : ι) : Bool := (id? x).any (· == id)

/-- The item has an id and lies between two whole positions. -/
structure Over (x : ι) (i j : Nat) : Prop where
  id : ∃ id, id? x = some id ∧ id.isId = true
  start : start? x = some (.int i)
  stop : stop? x = some (.int j)

theorem Over.start_iff (h : Over x i j) (k : Nat) : start? x = some (.int k) ↔ i = k := by
  rw [h.start, Option.some.injEq, Value.int.injEq, Int.natCast_inj]

theorem Over.stop_iff (h : Over x i j) (k : Nat) : stop? x = some (.int k) ↔ j = k := by
  rw [h.stop, Option.some.injEq, Value.int.injEq, Int.natCast_inj]

theorem Over.unique {k l : Nat} (h : Over x i j) (h' : Over x k l) : i = k ∧ j = l :=
  ⟨(h.start_iff k).1 h'.start, (h.stop_iff l).1 h'.stop⟩

end ParseChart.ChartItem
