import ParseChart.Chart
/-!
# Queries

What a chart answers about its items. A query's positions are compared as numbers of any kind, so
they are first refused if they are none, then if they lie off the chart; only then is a row looked
up, and that takes an integer. Answers list buckets in the order of their ids in the row, and each
bucket in the order of insertion.
-/

namespace ParseChart.Chart

open ChartItem

variable {ι : Type} (c : Chart ι)

/-- A number on the chart, with its value. -/
def position (given : Value) : Except Fault Extended :=
  match given.number? with
  | some x =>
    if (Extended.finite 0).le x && x.le (.finite c.length) then .ok x else .error (.span given given c.length)
  | none => .error (.position given)

/-- The row that a position names. -/
def index (given : Value) : Except Fault Nat := do
  let _ ← c.position given
  match given.int? with
  | some i => .ok i.toNat
  | none => .error (.position given)

def itemsFrom (start : Value) : Except Fault (List ι) := (c.index start).map fun i => (c.rowFrom i).elems

def itemsTo (stop : Value) : Except Fault (List ι) := (c.index stop).map fun j => (c.rowTo j).elems

def countTo (stop : Value) : Except Fault Nat := (c.itemsTo stop).map List.length

/-- The number of items that stop at each position. -/
def counts : List Nat := c.incoming.map fun row => row.elems.length

def itemCount : Nat := c.counts.foldr (· + ·) 0

/-- The items that answer a question with yes; a fault if one of them has no answer. -/
def select (question : ι → Option Bool) (items : List ι) : Except Fault (List ι) :=
  if items.all fun x => (question x).isSome then .ok (items.filter fun x => question x == some true)
  else .error .part

variable [ChartItem ι]

/-- Only the start names a row; the stop is compared with the items there, whose ids need not fix it. -/
def itemsSpanning (start stop : Value) : Except Fault (List ι) := do
  let i ← c.position start
  let j ← c.position stop
  if i.le j then
    let row ← c.index start
    .ok ((c.rowFrom row).elems.filter fun x => (stop? x).any (· == stop))
  else .error (.span start stop c.length)

def completeItemsSpanning (start stop : Value) : Except Fault (List ι) := do
  select isComplete? (← c.itemsSpanning start stop)

/-- The complete items over the whole input for a symbol; if there is one, the input is accepted. -/
def fullParseItems (symbol : String) : Except Fault (List ι) := do
  select (derives? symbol) (← c.completeItemsSpanning (.int 0) (.int c.length))

/-- The trees of the complete items of a kind over the whole input for a symbol. Items of other kinds are passed
over, whatever they lack. -/
def parseTrees (symbol : String) (kind : Kind) : Except Fault (List Tree) := do
  let items ← c.itemsSpanning (.int 0) (.int c.length)
  let parses ← select (isParse? symbol) (items.filter fun x => kind? x == some kind)
  match parses.mapM tree? with
  | some trees => .ok trees
  | none => .error .part

end ParseChart.Chart
