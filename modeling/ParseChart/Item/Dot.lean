import ParseChart.Fault
import ParseChart.Item
/-!
# What stands after the dot

A dot at or past the end of a rule has nothing after it. A negative dot counts back from the end,
as far as the rule reaches.
-/

namespace ParseChart

def Rule.symbolAt (r : Rule) (dot : Int) : Except Fault (Option String) :=
  let index := if dot < 0 then dot + r.rhs.length else dot
  if r.rhs.length ≤ dot then .ok none
  else if index < 0 then .error .dot
  else .ok r.rhs[index.toNat]?

def Item.nextSymbol : Item → Except Fault (Option String)
  | .earley r dot .. => r.symbolAt dot
  | _ => .error .part

end ParseChart
