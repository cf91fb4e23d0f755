import ParseChart.Item
import ParseChart.Text.Digit
/-!
# Options

How the arguments of the command are read. An argument that begins with `-` is an option, unless it
is a lone `-`, a negative number or has a blank in it; `--` ends the options. A long option may be
shortened as far as it stays unambiguous, and takes its value from behind a `=` or from the next
argument, which must be none of the options; the last value counts. A value `--` is dropped like the
mark it looks like, which leaves the option empty. The tokens are the first run of arguments that
are neither options nor values; what is left over is unrecognized.
-/

namespace ParseChart.CommandLine

inductive Flag
  | help
  | algorithm
  | start
  | logLevel
  deriving DecidableEq, Repr

/-- The long names; help has the short name `-h` besides. -/
def Flag.longNames : List (String × Flag) :=
  [("--help", .help), ("--algorithm", .algorithm), ("--start", .start), ("--log-level", .logLevel)]

def Flag.display : Flag → String
  | .help => "-h/--help"
  | .algorithm => "--algorithm"
  | .start => "--start"
  | .logLevel => "--log-level"

inductive UsageError
  | ambiguous (given : String) (names : List String)
  | ignored (flag : Flag) (given : String)
  | valueMissing (flag : Flag)
  | choice (given : String)
  | unrecognized (given : List String)
  deriving DecidableEq, Repr

def UsageError.message : UsageError → String
  | .ambiguous given names => "ambiguous option: " ++ given ++ " could match " ++ ", ".intercalate names
  | .ignored flag given => "argument " ++ flag.display ++ ": ignored explicit argument " ++ Text.quoted given
  | .valueMissing flag => "argument " ++ flag.display ++ ": expected one argument"
  | .choice given =>
    "argument --algorithm: invalid choice: " ++ Text.quoted given ++ " (choose from 'earley', 'cyk')"
  | .unrecognized given => "unrecognized arguments: " ++ " ".intercalate given

/-- What ends the reading before the options are known. -/
inductive Stop
  | help
  | usage (error : UsageError)
  deriving DecidableEq, Repr

/-- An argument by its form. -/
inductive Arg
  | word (text : String)
  | flag (flag : Flag) (value : Option String)
  /-- The short form of help with more letters behind it. -/
  | letters (tail : List Char)
  | unknown (text : String)
  deriving DecidableEq, Repr

/-- What stands before the first `=`, and what stands behind it. -/
def splitValue (arg : List Char) : List Char × Option String :=
  match arg.dropWhile (· ≠ '=') with
  | [] => (arg, none)
  | _ :: value => (arg.takeWhile (· ≠ '='), some (String.ofList value))

/-- A minus and digits, which may have a point before the last of them. A final line feed is let pass. -/
def isNegativeNumber : List Char → Bool
  | '-' :: text =>
    let text := if text.getLast? = some '\n' then text.dropLast else text
    match text.dropWhile Text.isDecimalDigit with
    | [] => !text.isEmpty
    | '.' :: fraction => !fraction.isEmpty && fraction.all Text.isDecimalDigit
    | _ => false
  | _ => false

/-- An argument that is neither a name of an option nor short for one. -/
def classifyOther (arg : String) : Arg :=
  if isNegativeNumber arg.toList || arg.contains ' ' then .word arg else .unknown arg

/-- An argument that begins with two minus signs; a whole name is short for no other. -/
def classifyLong (arg : String) : Except Stop Arg :=
  let (name, value) := splitValue arg.toList
  match Flag.longNames.filter fun named => name.isPrefixOf named.1.toList with
  | [] => .ok (classifyOther arg)
  | [(_, flag)] => .ok (.flag flag value)
  | several => .error (.usage (.ambiguous arg (several.map (·.1))))

def classify (arg : String) : Except Stop Arg :=
  match arg.toList with
  | ['-', 'h'] => .ok (.flag .help none)
  | '-' :: 'h' :: '=' :: value => .ok (.letters value)
  | '-' :: 'h' :: tail => .ok (.letters tail)
  | '-' :: '-' :: _ => classifyLong arg
  | '-' :: _ :: _ => .ok (classifyOther arg)
  | _ => .ok (.word arg)

/-- The arguments up to `--`, and all words behind it if it is there. -/
def classifyAll : List String → Except Stop (List Arg × Option (List String))
  | [] => .ok ([], none)
  | arg :: rest =>
    if arg = "--" then .ok ([], some rest)
    else do
      let first ← classify arg
      let (others, words) ← classifyAll rest
      return (first :: others, words)

/-- The symbol to parse for. -/
inductive Start
  | ofGrammar
  | symbol (name : String)
  | empty
  deriving DecidableEq, Repr

/-- An empty level is `none`. -/
structure Options where
  algorithm : Kind
  start : Start
  logLevel : Option String
  tokens : List String
  deriving DecidableEq, Repr

/-- The options read so far: the run of words that is still open, the run taken as tokens, the rest. -/
structure Reading where
  algorithm : Kind := .earley
  start : Start := .ofGrammar
  logLevel : Option String := some "WARNING"
  run : List String := []
  tokens : Option (List String) := none
  extras : List String := []

namespace Reading

/-- An option ends a run of words. -/
def close (r : Reading) : Reading :=
  if r.run.isEmpty then r
  else match r.tokens with
    | none => { r with tokens := some r.run, run := [] }
    | some _ => { r with extras := r.extras ++ r.run, run := [] }

/-- Leave an option empty. The algorithm is then the one that is used unless another is named. -/
def clear (r : Reading) : Flag → Reading
  | .help => r
  | .algorithm => { r with algorithm := .earley }
  | .start => { r with start := .empty }
  | .logLevel => { r with logLevel := none }

def set (r : Reading) (flag : Flag) (value : String) : Except Stop Reading :=
  if value = "--" then .ok (r.clear flag)
  else match flag with
    | .help => .error .help
    | .algorithm =>
      if value = "earley" then .ok { r with algorithm := .earley }
      else if value = "cyk" then .ok { r with algorithm := .cyk }
      else .error (.usage (.choice value))
    | .start => .ok { r with start := .symbol value }
    | .logLevel => .ok { r with logLevel := some value }

/-- The last run goes on behind `--`, which is left out of the tokens but not of what is left over. -/
def finish (r : Reading) (words : Option (List String)) : Except Stop Options :=
  let (tokens, extras) := match r.tokens with
    | none => (r.run ++ words.getD [], r.extras)
    | some tokens => (tokens, r.extras ++ r.run ++ (words.map ("--" :: ·)).getD [])
  if extras.isEmpty then .ok ⟨r.algorithm, r.start, r.logLevel, tokens⟩
  else .error (.usage (.unrecognized extras))

end Reading

/-- The letters behind the short form of help can only ask for help again. -/
def readLetters : List Char → Stop
  | ['h'] => .help
  | 'h' :: tail => readLetters tail
  | tail => .usage (.ignored .help (String.ofList tail))

def readArgs : List Arg → Reading → Except Stop Reading
  | [], r => .ok r
  | .word text :: rest, r => readArgs rest { r with run := r.run ++ [text] }
  | .unknown text :: rest, r =>
    let r := r.close
    readArgs rest { r with extras := r.extras ++ [text] }
  | .letters tail :: _, _ => .error (readLetters tail)
  | .flag .help none :: _, _ => .error .help
  | .flag .help (some value) :: _, _ => .error (.usage (.ignored .help value))
  | .flag flag (some value) :: rest, r => do readArgs rest (← r.close.set flag value)
  | .flag flag none :: .word value :: rest, r => do readArgs rest (← r.close.set flag value)
  | .flag flag none :: _, _ => .error (.usage (.valueMissing flag))

def readOptions (args : List String) : Except Stop Options := do
  let (args, words) ← classifyAll args
  (← readArgs args {}).finish words

end ParseChart.CommandLine
