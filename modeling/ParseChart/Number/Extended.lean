/-!
# Numbers with two infinities

Exact rationals between two infinities, with their order.
-/

namespace ParseChart

inductive Extended
  | finite (x : Rat)
  | infinite (negative : Bool)
  deriving DecidableEq, Repr

namespace Extended

def le : Extended → Extended → Bool
  | .finite x, .finite y => x ≤ y
  | .infinite negative, .infinite negative' => negative || !negative'
  | .infinite negative, .finite _ => negative
  | .finite _, .infinite negative => !negative

end Extended

end ParseChart
