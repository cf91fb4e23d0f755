import ParseChart.Chart.Logged
import ParseChart.Item
/-!
# Tabular parsing of grammars in normal form

Constituents are found upwards, by increasing width. The constituents of one word come from the
lexical rules; a wider span is split at each place within, and each pair of constituents left and
right of the split is joined by the binary rules for their symbols. Every derivation of a
constituent is an item of its own.
-/

namespace ParseChart

structure Cyk where
  grammar : Grammar
  start : String

namespace Cyk

def logName : String := "chart_parsers.cyk"

/-- The start symbol given, if any, stands in for the grammar's and is not checked. -/
def ofGrammar (g : Grammar) (start : Option String) : Except GrammarError Cyk :=
  if g.isNormalForm then .ok ⟨g, start.getD g.start⟩ else .error .notNormalForm

variable (p : Cyk)

def lexicalItems (i : Nat) (word : String) : List Item :=
  (p.grammar.lexicalRulesFor word).map fun r => .cyk r (.between i (i + 1)) [.word word]

/-- The constituents over `i..j` made of a left one and a right one. -/
def joins (i j : Int) (left right : Item) : List Item :=
  match left.rule?, right.rule? with
  | some b, some c =>
    (p.grammar.binaryRulesFor b.lhs c.lhs).map fun r => .cyk r (.between i j) [left, right]
  | _, _ => []

/-- The constituents among the complete items of a span; items of other parsers have no kind to tell. -/
def constituents (i j : Int) : ChartM Item (List Item) := do
  let items ← ChartM.completeItemsSpanning (.int i) (.int j)
  ChartM.ofExcept (Chart.select (fun x => x.kind?.map (· == .cyk)) items)

/-- Join what lies left and right of the split `m`. -/
def combine (i m j : Int) : ChartM Item Unit := do
  let lefts ← constituents i m
  let rights ← constituents m j
  let _ ← ChartM.offer ((lefts.flatMap fun left => rights.flatMap (p.joins i j left)).map .ok)

/-- The splits `i < m < j` of all spans up to `n`, by width, then from the left, then by split. -/
def schedule (n : Nat) : List (Nat × Nat × Nat) :=
  (List.range' 2 (n - 1)).flatMap fun width =>
    (List.range (n - width + 1)).flatMap fun i =>
      (List.range' (i + 1) (width - 1)).map fun m => (i, m, i + width)

def fill (tokens : List String) : ChartM Item Unit := do
  tokens.zipIdx.forM fun (word, i) => do
    let _ ← ChartM.offer ((p.lexicalItems i word).map .ok)
  (schedule tokens.length).forM fun (i, m, j) => p.combine i m j
  ChartM.tellAs logName (.parsed .cyk tokens.length (← ChartM.chart).itemCount)

def parse (tokens : List String) : Except Halt Unit × Logged Item :=
  ChartM.onEmpty tokens.length Chart.logName (p.fill tokens)

def recognize (tokens : List String) : Except Halt Bool × Logged Item :=
  ChartM.onEmpty tokens.length Chart.logName do
    p.fill tokens
    return !(← ChartM.fullParseItems p.start).isEmpty

def parseTrees (tokens : List String) : Except Halt (List Tree) × Logged Item :=
  ChartM.onEmpty tokens.length Chart.logName do
    p.fill tokens
    ChartM.parseTrees p.start .cyk

end Cyk

end ParseChart
