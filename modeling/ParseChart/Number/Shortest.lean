import ParseChart.Number.Binary64
/-!
# Shortest decimal text

A double precision number is written with the fewest digits that read back as it, and of those the
nearest to it. Powers of ten from -4 to 15 are written positionally, with `.0` kept after a whole
number; outside them the text has an exponent of at least two digits.
-/

namespace ParseChart.Binary64

/-- The decimal `0.digits · 10^point`. -/
structure Decimal where
  digits : Nat
  point : Int
  deriving DecidableEq, Repr

/-- The least `p` with `x < 10^p`, for positive `x`. -/
def decimalPoint (x : Rat) : Int :=
  if 1 ≤ x then (Nat.repr x.floor.toNat).length
  else 1 - (Nat.repr ((x.den - 1) / x.num.natAbs)).length

/-- The rationals that round to a positive number, and whether the two ends belong to them. -/
structure Interval where
  low : Rat
  high : Rat
  closed : Bool

def Interval.has (i : Interval) (x : Rat) : Bool :=
  if i.closed then i.low ≤ x && x ≤ i.high else i.low < x && x < i.high

/-- The numbers below a power of two are twice as close as those above it. -/
def rounding (mantissa : Nat) (exponent : Int) : Interval :=
  let unit := (2 : Rat) ^ exponent
  let below := if mantissa = Nat.pow 2 52 ∧ leastExponent < exponent then unit / 2 else unit
  let x := mantissa * unit
  ⟨x - below / 2, x + unit / 2, mantissa % 2 = 0⟩

/-- The multiple of `unit` nearest to `x` that lies in the interval, as its factor. -/
def nearestIn (i : Interval) (x unit : Rat) : Option Nat :=
  let down := (x / unit).floor.toNat
  let up := down + 1
  match i.has (down * unit), i.has (up * unit) with
  | true, true =>
    let below := x - down * unit
    let above := up * unit - x
    if below < above then down else if above < below then up else some (down + down % 2)
  | true, false => down
  | false, true => up
  | false, false => none

/-- Tries one digit more at a time; seventeen digits always tell two numbers apart. -/
def shortestFrom (i : Interval) (x : Rat) (point : Int) (count : Nat) : Nat → Decimal
  | 0 => ⟨0, point⟩
  | more + 1 =>
    match nearestIn i x ((10 : Rat) ^ (point - count)) with
    | some digits => if digits = 10 ^ count then ⟨1, point + 1⟩ else ⟨digits, point⟩
    | none => shortestFrom i x point (count + 1) more

/-- The fewest digits for a positive number. -/
def shortest (mantissa : Nat) (exponent : Int) : Decimal :=
  let x := (mantissa : Rat) * (2 : Rat) ^ exponent
  shortestFrom (rounding mantissa exponent) x (decimalPoint x) 1 17

def zeros (n : Nat) : List Char := List.replicate n '0'

/-- Exponents have a sign and two digits or more. -/
def exponentText (e : Int) : List Char :=
  let digits := (Nat.repr e.natAbs).toList
  (if e < 0 then '-' else '+') :: (zeros (2 - digits.length) ++ digits)

def Decimal.layout (d : Decimal) : List Char :=
  let digits := (Nat.repr d.digits).toList
  let count := digits.length
  if d.point < -3 ∨ 16 < d.point then
    let fraction := if count = 1 then [] else '.' :: digits.drop 1
    digits.take 1 ++ fraction ++ 'e' :: exponentText (d.point - 1)
  else if d.point ≤ 0 then '0' :: '.' :: (zeros d.point.natAbs ++ digits)
  else if count ≤ d.point then digits ++ zeros (d.point.toNat - count) ++ ['.', '0']
  else digits.take d.point.toNat ++ '.' :: digits.drop d.point.toNat

def text : Binary64 → String
  | .infinite negative => if negative then "-inf" else "inf"
  | .finite negative mantissa exponent =>
    let magnitude := if mantissa = 0 then ['0', '.', '0'] else (shortest mantissa exponent).layout
    String.ofList (if negative then '-' :: magnitude else magnitude)

end ParseChart.Binary64
