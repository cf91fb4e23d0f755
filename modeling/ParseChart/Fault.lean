import ParseChart.Value
/-!
# Faults

Why an operation on a chart or on an item has no answer.
-/

namespace ParseChart

inductive Fault
  | length (given : Value)
  /-- An item without an id or without both ends of a span, in its form in messages. -/
  | shape (shown : String)
  /-- An id that may change. -/
  | id (given : Value)
  | positions (start stop : Value)
  | span (start stop : Value) (n : Nat)
  /-- An item that lacks the part asked for. -/
  | part
  /-- A dot that stands before the right side of its rule. -/
  | dot
  /-- A value that no row of the chart has as its position. -/
  | position (given : Value)
  deriving Repr

namespace Fault

def message : Fault → String
  | .length given => "Chart length must be a non-negative integer, got " ++ given.quoted
  | .shape shown => "Chart items need an 'id' and a 'span' with 'start' and 'end': " ++ shown
  | .id given => "Item id must be hashable, got " ++ given.quoted
  | .positions start stop =>
    "Span positions must be integers, got (" ++ start.quoted ++ ", " ++ stop.quoted ++ ")"
  | .span start stop n =>
    "Span (" ++ start.display ++ ", " ++ stop.display ++ ") is not valid for a chart over positions 0.." ++ n.repr
  | .part => "The item has no such part"
  | .dot => "The dot stands before the rule"
  | .position given => "No row of the chart has the position " ++ given.quoted

end Fault

end ParseChart
