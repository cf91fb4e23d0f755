import ParseChart.ChartItem
/-!
# Records

What a chart and its parsers tell a log, each record under the name of who tells it.
-/

namespace ParseChart

inductive Event
  | chart (length : Nat)
  | insertion (id : Value)
  | duplicate
  | added (start stop : Nat)
  | contains (id : Value) (found : Bool)
  | spanning (start stop : Value) (count : Nat)
  | leaving (start : Value) (count : Nat)
  | reaching (stop : Value) (count : Nat)
  | accepted (symbol : String) (count : Nat)
  | trees (symbol : String) (kind : Kind) (count : Nat)
  | parsed (kind : Kind) (tokens count : Nat)
  deriving Repr

structure Record where
  source : String
  event : Event
  deriving Repr

/-- Positions are shown as whole numbers and ids as they are. -/
def Event.message : Event → String
  | .chart length => s!"Chart: {length}"
  | .insertion id => s!"Enter Chart.insert: {id.display}"
  | .duplicate => "Exit Chart.insert: duplicate"
  | .added start stop => s!"Exit Chart.insert: added at ({start}, {stop})"
  | .contains id found => s!"Chart.contains({id.display}): {(Value.bool found).display}"
  | .spanning start stop count => s!"Chart.items_spanning({start.truncate}, {stop.truncate}): {count} items"
  | .leaving start count => s!"Chart.items_from({start.truncate}): {count} items"
  | .reaching stop count => s!"Chart.items_to({stop.truncate}): {count} items"
  | .accepted symbol count => s!"Chart.full_parse_items({symbol}): {count} items"
  | .trees symbol .earley count => s!"Chart.parse_trees({symbol}, ItemKind.EARLEY): {count} trees"
  | .trees symbol .cyk count => s!"Chart.parse_trees({symbol}, ItemKind.CYK): {count} trees"
  | .parsed .earley tokens count => s!"Earley parse of {tokens} tokens: {count} items"
  | .parsed .cyk tokens count => s!"CYK parse of {tokens} tokens: {count} items"

end ParseChart
