import ParseChart.CommandLine.Level
import ParseChart.CommandLine.Options
import ParseChart.Cyk
import ParseChart.Earley
import ParseChart.Grammar.English
/-!
# The command

Parses its arguments as a sentence of the small English grammar and prints the trees. The status is
0 for a sentence and 1 for anything else, and 2 with a usage message for arguments that cannot be
read. Records go to the error stream. A level that is none ends the command before the parse, and a
start that is empty ends the Earley parse at its first item.
-/

namespace ParseChart.CommandLine

structure Reply where
  status : Nat
  out : String
  err : String
  deriving DecidableEq, Repr

/-- Why there is no reply. -/
inductive Cause
  | level (error : LevelError)
  | emptyStart
  | grammar (error : GrammarError)
  | halted (halt : Halt)
  deriving Repr

def Cause.message : Cause → String
  | .level error => error.message
  | .emptyStart => "No rule can be written for an empty start symbol"
  | .grammar error => error.message
  | .halted (.fault cause) => cause.message
  | .halted .unfinished => "The parse did not end"

/-- The end without a reply, with what was written to the error stream before it. -/
structure Abort where
  cause : Cause
  err : String
  deriving Repr

def usage : String :=
  "usage: chart-parser [-h] [--algorithm \x7bearley,cyk\x7d] [--start START]\n" ++
  "                    [--log-level LOG_LEVEL]\n" ++
  "                    [tokens ...]\n"

def help : String :=
  usage ++
  "\nDemo CLI for the chart_parsers package. Parses the input tokens with a small\n" ++
  "English grammar and prints the parse trees.\n" ++
  "\npositional arguments:\n" ++
  "  tokens                Space-separated input tokens (default: 'the cat likes\n" ++
  "                        the mat').\n" ++
  "\noptions:\n" ++
  "  -h, --help            show this help message and exit\n" ++
  "  --algorithm \x7bearley,cyk\x7d\n" ++
  "                        Chart-parsing algorithm (default: earley).\n" ++
  "  --start START         Start symbol (default: the grammar's, S).\n" ++
  "  --log-level LOG_LEVEL\n" ++
  "                        Python logging level (default: WARNING)\n"

def sentence : List String := ["the", "cat", "likes", "the", "mat"]

/-- What the command has to say of a parse. -/
structure Report where
  accepted : Bool
  itemCount : Nat
  trees : List Tree

def report (kind : Kind) (start : String) (fill : ChartM Item Unit) : ChartM Item Report := do
  fill
  let parses ← ChartM.fullParseItems start
  let itemCount := (← ChartM.chart).itemCount
  let trees ← ChartM.parseTrees start kind
  return ⟨!parses.isEmpty, itemCount, trees⟩

def reportFor (fuel : Nat) (kind : Kind) (start : Option String) (tokens : List String) :
    Except GrammarError (ChartM Item Report) :=
  match kind with
  | .earley => (Earley.ofGrammar .english start).map fun p => report .earley p.start (p.fill fuel tokens)
  | .cyk => (Cyk.ofGrammar .english start).map fun p => report .cyk p.start (p.fill tokens)

/-- Lines wider than this are broken. -/
def margin : Int := 10000

/-- The lines of a report, with a layout for its trees that is told the margin. -/
def Report.lines (r : Report) (layout : Int → Tree → String) (tokens : List String) : List String :=
  ["tokens: " ++ " ".intercalate tokens, s!"chart items: {r.itemCount}",
   "accepted? " ++ (Value.bool r.accepted).display] ++ r.trees.map (layout margin)

def unlines (lines : List String) : String := String.join (lines.map (· ++ "\n"))

def recordLine (r : Record) : String := "DEBUG:" ++ r.source ++ ":" ++ r.event.message

def recordText (shown : Bool) (logged : Logged Item) : String :=
  if shown then unlines (logged.records.reverse.map recordLine) else ""

/-- The start symbol for a parser. An empty start is shown as `[]`, which no rule has for its left side. -/
def Start.symbol? : Start → Option String
  | .ofGrammar => none
  | .symbol name => some name
  | .empty => some "[]"

def answer (layout : Int → Tree → String) (fuel : Nat) (o : Options) : Except Abort Reply := do
  let shown ← (showsRecords o.logLevel).mapError fun error => ⟨.level error, ""⟩
  let tokens := if o.tokens.isEmpty then sentence else o.tokens
  if o.start = .empty ∧ o.algorithm = .earley then
    let (_, logged) := ChartM.onEmpty tokens.length Chart.logName (pure () : ChartM Item Unit)
    throw ⟨.emptyStart, recordText shown logged⟩
  let work ← (reportFor fuel o.algorithm o.start.symbol? tokens).mapError fun error => ⟨.grammar error, ""⟩
  let (result, logged) := ChartM.onEmpty tokens.length Chart.logName work
  let r ← result.mapError fun halt => ⟨.halted halt, recordText shown logged⟩
  return ⟨if r.accepted then 0 else 1, unlines (r.lines layout tokens), recordText shown logged⟩

def run (layout : Int → Tree → String) (fuel : Nat) (args : List String) : Except Abort Reply :=
  match readOptions args with
  | .ok options => answer layout fuel options
  | .error .help => .ok ⟨0, help, ""⟩
  | .error (.usage error) => .ok ⟨2, "", usage ++ "chart-parser: error: " ++ error.message ++ "\n"⟩

end ParseChart.CommandLine
