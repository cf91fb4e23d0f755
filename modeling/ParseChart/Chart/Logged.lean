import ParseChart.Chart.Query
import ParseChart.Record
/-!
# Work on a chart

The operations of a chart as steps of a computation that keeps a log. A step that fails leaves the
chart and the log as they were when it failed. Each step answers what the chart's own operation
answers; a refused insertion or query leaves no record.
-/

namespace ParseChart

/-- A chart and the records of what was done on it, newest first. -/
structure Logged (ι : Type) where
  chart : Chart ι
  source : String
  records : List Record
  deriving Repr

/-- Why a computation stopped short: a fault, or its fuel ran out. -/
inductive Halt
  | fault (cause : Fault)
  | unfinished
  deriving Repr

abbrev ChartM (ι : Type) := ExceptT Halt (StateM (Logged ι))

namespace ChartM

variable {ι : Type}

def fail {α : Type} (cause : Fault) : ChartM ι α := throw (.fault cause)

def ofExcept {α : Type} : Except Fault α → ChartM ι α
  | .ok a => pure a
  | .error cause => fail cause

def chart : ChartM ι (Chart ι) := return (← get).chart

/-- Record an event under another name than the chart's. -/
def tellAs (source : String) (event : Event) : ChartM ι Unit :=
  modify fun s => { s with records := ⟨source, event⟩ :: s.records }

def tell (event : Event) : ChartM ι Unit := do tellAs (← get).source event

/-- What the chart answers, without a record. -/
def ask {α : Type} (question : Chart ι → Except Fault α) : ChartM ι α := do ofExcept (question (← chart))

/-- What the chart lists, recorded with its number. -/
def list {α : Type} (question : Chart ι → Except Fault (List α)) (event : Nat → Event) : ChartM ι (List α) := do
  let answers ← ask question
  tell (event answers.length)
  return answers

/-- A computation on an empty chart. -/
def onEmpty {α : Type} (length : Nat) (source : String) (work : ChartM ι α) : Except Halt α × Logged ι :=
  (tell (.chart length) *> work).run.run ⟨.empty length, source, []⟩

def itemsFrom (start : Value) : ChartM ι (List ι) := list (·.itemsFrom start) (.leaving start)

def itemsTo (stop : Value) : ChartM ι (List ι) := list (·.itemsTo stop) (.reaching stop)

variable [ChartItem ι]

/-- Whether the item is new. -/
def insert (x : ι) : ChartM ι Bool := do
  let made ← ask (·.insert x)
  tell (.insertion made.place.id)
  modify fun s => { s with chart := made.chart }
  tell (if made.isNew then .added made.place.start made.place.stop else .duplicate)
  return made.isNew

def contains (x : ι) : ChartM ι Bool := do
  let place ← ask (·.place x)
  let found ← ask (·.contains x)
  tell (.contains place.id found)
  return found

def itemsSpanning (start stop : Value) : ChartM ι (List ι) :=
  list (·.itemsSpanning start stop) (.spanning start stop)

def completeItemsSpanning (start stop : Value) : ChartM ι (List ι) := do
  let _ ← itemsSpanning start stop
  ask (·.completeItemsSpanning start stop)

def fullParseItems (symbol : String) : ChartM ι (List ι) := do
  let _ ← itemsSpanning (.int 0) (.int (← chart).length)
  list (·.fullParseItems symbol) (.accepted symbol)

def parseTrees (symbol : String) (kind : Kind) : ChartM ι (List Tree) := do
  let _ ← itemsSpanning (.int 0) (.int (← chart).length)
  list (·.parseTrees symbol kind) (.trees symbol kind)

/-- Offer items in turn and answer those that were new; the first that could not be made ends it. -/
def offer : List (Except Fault ι) → ChartM ι (List ι)
  | [] => return []
  | made :: rest => do
    let x ← ofExcept made
    let isNew ← insert x
    let others ← offer rest
    return if isNew then x :: others else others

end ChartM

/-- The name under which charts make their records, unless they are given another. -/
def Chart.logName : String := "chart_parsers.chart"

end ParseChart
