import ParseChart.Grammar
import ParseChart.Tree
import ParseChart.Value
/-!
# What a chart asks of its items

A chart takes items of any class. It files them by an id between two positions, and for its queries it
asks for their kind, their rule, their tree and whether they are complete. An item may lack each of
these parts, and has it once and for all. Items are told apart by `==`, under which equal items lie
between equal positions.
-/

namespace ParseChart

inductive Kind
  | earley
  | cyk
  deriving DecidableEq, Repr

instance : EquivBEq (Option Value) where
  symm {x y} h := by
    cases x <;> cases y <;> simp_all only [Option.some_beq_some, Option.some_beq_none, Option.none_beq_some, reduceCtorEq]
    exact BEq.symm h
  trans {x y z} h h' := by
    cases x <;> cases y <;> cases z <;> simp_all
    exact BEq.trans h h'

class ChartItem (ι : Type) extends BEq ι, EquivBEq ι where
  id? : ι → Option Value
  start? : ι → Option Value
  stop? : ι → Option Value
  rule? : ι → Option Rule
  kind? : ι → Option Kind
  isComplete? : ι → Option Bool
  tree? : ι → Option Tree
  /-- The form in messages. -/
  shown : ι → String
  start_beq : ∀ {x y : ι}, (x == y) = true → (start? x == start? y) = true
  stop_beq : ∀ {x y : ι}, (x == y) = true → (stop? x == stop? y) = true

namespace ChartItem

variable {ι : Type} [ChartItem ι]

/-- Whether the item is for a symbol. -/
def derives? (symbol : String) (x : ι) : Option Bool := (rule? x).map (·.lhs == symbol)

/-- Whether the item is complete and for a symbol. If it is for another, it is not asked whether it is complete. -/
def isParse? (symbol : String) (x : ι) : Option Bool := do
  if ← derives? symbol x then isComplete? x else return false

end ChartItem

end ParseChart
