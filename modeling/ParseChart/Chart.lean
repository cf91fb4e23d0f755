import ParseChart.ChartItem
import ParseChart.Fault
/-!
# Charts

A chart over the positions `0..length` files each item twice, by its id: in the row of the position
where it starts and in the row of the position where it stops. An item is admitted if it has an id
and a span that lies on the chart, and is added unless an equal item with the same id starts at the
same position. Nothing is ever removed or replaced.
-/

namespace ParseChart

open ChartItem

abbrev Row (ι : Type) := Buckets Value ι

structure Chart (ι : Type) where
  length : Nat
  outgoing : List (Row ι)
  incoming : List (Row ι)
  deriving Repr

/-- Where a chart files an item. -/
structure Place where
  id : Value
  start : Nat
  stop : Nat
  deriving Repr

/-- What came of an insertion: the place of the item, whether it is new, and the chart with it. -/
structure Insertion (ι : Type) where
  place : Place
  isNew : Bool
  chart : Chart ι
  deriving Repr

namespace Chart

variable {ι : Type}

def empty (length : Nat) : Chart ι :=
  ⟨length, List.replicate (length + 1) [], List.replicate (length + 1) []⟩

/-- A truth value is no length. -/
def ofLength : Value → Except Fault (Chart ι)
  | .int n => if 0 ≤ n then .ok (empty n.toNat) else .error (.length (.int n))
  | given => .error (.length given)

variable (c : Chart ι)

def rowFrom (i : Nat) : Row ι := c.outgoing.getD i []

def rowTo (j : Nat) : Row ι := c.incoming.getD j []

def file (p : Place) (x : ι) : Chart ι :=
  { c with
    outgoing := c.outgoing.modify p.start (Buckets.add p.id x)
    incoming := c.incoming.modify p.stop (Buckets.add p.id x) }

variable [ChartItem ι]

def place (x : ι) : Except Fault Place :=
  match id? x, start? x, stop? x with
  | some id, some start, some stop =>
    if id.isId then
      match start.int?, stop.int? with
      | some i, some j =>
        if 0 ≤ i ∧ i ≤ j ∧ j ≤ c.length then .ok ⟨id, i.toNat, j.toNat⟩ else .error (.span start stop c.length)
      | _, _ => .error (.positions start stop)
    else .error (.id id)
  | _, _, _ => .error (.shape (shown x))

def holds (p : Place) (x : ι) : Bool := ((c.rowFrom p.start).get p.id).any (· == x)

def insert (x : ι) : Except Fault (Insertion ι) :=
  (c.place x).map fun p => if c.holds p x then ⟨p, false, c⟩ else ⟨p, true, c.file p x⟩

def contains (x : ι) : Except Fault Bool := (c.place x).map fun p => c.holds p x

end Chart

end ParseChart
