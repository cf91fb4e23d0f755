import ParseChart.Chart.Logged
import ParseChart.Grammar.UnitCycle
import ParseChart.Item.Dot
/-!
# Earley parsing

Dotted items of the grammar's rules are closed position by position. At a position, an item that
waits for a nonterminal predicts its rules, one that waits for a terminal scans the token there into
the next position, and a complete item advances the items that waited for its symbol where it
starts. Empty rules and cycles of unit rules are refused, as either would give a span derivations
without end. A closure runs on fuel, one unit for each item it takes up.
-/

namespace ParseChart

structure Earley where
  grammar : Grammar
  start : String

namespace Earley

/-- The left side of the rule above the start symbol. -/
def topSymbol : String := "γ"

def logName : String := "chart_parsers.earley"

/-- More items than any machine gets to treat. -/
def ampleFuel : Nat := Nat.pow 2 62

/-- The start symbol given, if any, stands in for the grammar's and is not checked. -/
def ofGrammar (g : Grammar) (start : Option String) : Except GrammarError Earley :=
  if g.hasEmptyRule then .error .emptyRule
  else if g.hasUnitCycle then .error .unitCycle
  else .ok ⟨g, start.getD g.start⟩

variable (p : Earley)

def startItem : Item := .earley ⟨topSymbol, [p.start]⟩ 0 (.between 0 0) []

/-- What a rule is predicted as at a position. -/
def predicted (k : Int) (r : Rule) : Item := .earley r 0 (.between k k) []

/-- The advance of a parent over a complete item for `symbol`; `none` if the parent waits for something else. -/
def completed? (symbol : String) (child : Item) (k : Int) (parent : Item) : Option (Except Fault Item) :=
  match parent.kind? with
  | none => some (.error .part)
  | some .cyk => none
  | some .earley =>
    match parent.nextSymbol with
    | .error cause => some (.error cause)
    | .ok next => if next == some symbol then (parent.advance? child (.int k)).map .ok else none

/-- Treat one item at `k`; the answer lists the new items that stop at `k`. -/
def treat (tokens : List String) (k : Int) (x : Item) : ChartM Item (List Item) := do
  match x with
  | .earley rule dot span _ =>
    match ← ChartM.ofExcept (rule.symbolAt dot) with
    | none =>
      let parents ← ChartM.itemsTo span.start
      ChartM.offer (parents.filterMap (completed? rule.lhs x k))
    | some a =>
      if !p.grammar.isTerminal a then
        ChartM.offer ((p.grammar.rulesFor a).map fun r => .ok (predicted k r))
      else if tokens[k.toNat]? == some a then
        let _ ← ChartM.offer ((x.advance? (.word a) (.int (k + 1))).toList.map .ok)
        return []
      else return []
  | _ => ChartM.fail .part

/-- Treat the items of a work list, first come first served, and the new items they bring. -/
def drain (tokens : List String) (k : Int) : Nat → List Item → ChartM Item Unit
  | _, [] => return ()
  | 0, _ :: _ => throw .unfinished
  | fuel + 1, x :: rest => do
    let fresh ← p.treat tokens k x
    drain tokens k fuel (rest ++ fresh)

def closure (fuel : Nat) (tokens : List String) (k : Int) : ChartM Item Unit := do
  p.drain tokens k fuel (← ChartM.itemsTo (.int k))

/-- Close the positions of an empty chart from left to right. -/
def fill (fuel : Nat) (tokens : List String) : ChartM Item Unit := do
  let _ ← ChartM.insert p.startItem
  (List.range (tokens.length + 1)).forM fun k => p.closure fuel tokens k
  ChartM.tellAs logName (.parsed .earley tokens.length (← ChartM.chart).itemCount)

def parse (fuel : Nat) (tokens : List String) : Except Halt Unit × Logged Item :=
  ChartM.onEmpty tokens.length Chart.logName (p.fill fuel tokens)

def recognize (fuel : Nat) (tokens : List String) : Except Halt Bool × Logged Item :=
  ChartM.onEmpty tokens.length Chart.logName do
    p.fill fuel tokens
    return !(← ChartM.fullParseItems p.start).isEmpty

def parseTrees (fuel : Nat) (tokens : List String) : Except Halt (List Tree) × Logged Item :=
  ChartM.onEmpty tokens.length Chart.logName do
    p.fill fuel tokens
    ChartM.parseTrees p.start .earley

end Earley

end ParseChart
