import ParseChart.Number.Extended
/-!
# Double precision numbers

A number of the 64-bit binary format is held as its exact value: a sign and `mantissa · 2^exponent`,
or an infinity. The mantissa has 53 bits, fewer only at the least exponent, so each number but zero
has one form.
-/

namespace ParseChart

inductive Binary64
  | finite (negative : Bool) (mantissa : Nat) (exponent : Int)
  | infinite (negative : Bool)
  deriving DecidableEq, Repr

namespace Binary64

def leastExponent : Int := -1074

/-- The exact value. -/
def value : Binary64 → Extended
  | .finite negative mantissa exponent =>
    let x := (mantissa : Rat) * (2 : Rat) ^ exponent
    .finite (if negative then -x else x)
  | .infinite negative => .infinite negative

/-- The whole part, without the fraction; an infinity has none and gives 0. -/
def truncate (x : Binary64) : Int :=
  match x.value with
  | .finite r => r.num.tdiv r.den
  | .infinite _ => 0

end Binary64

end ParseChart
