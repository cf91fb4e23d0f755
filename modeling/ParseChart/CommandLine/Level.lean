/-!
# Log levels

A level is given by name in either case. The two least levels show the records of a parse; every
other name, known or not, shows none. Two names stand for things that are no level, and an empty
level has no name to look up.
-/

namespace ParseChart.CommandLine

inductive LevelError
  | empty
  | layout
  | layouts
  deriving DecidableEq, Repr

def LevelError.message : LevelError → String
  | .empty => "The level is empty"
  | .layout => "Unknown level: '%(levelname)s:%(name)s:%(message)s'"
  | .layouts => "The level is a table of layouts"

/-- The letters outside ASCII whose capitals lie in ASCII. -/
def specialCapitals : List (Char × String) :=
  [('ß', "SS"), ('ı', "I"), ('ſ', "S"), ('\ufb00', "FF"), ('\ufb01', "FI"), ('\ufb02', "FL"),
   ('\ufb03', "FFI"), ('\ufb04', "FFL"), ('\ufb05', "ST"), ('\ufb06', "ST")]

/-- Capitals as far as they lie in ASCII; the names of levels have no others. -/
def capitals (text : String) : String :=
  String.ofList (text.toList.flatMap fun c => match specialCapitals.lookup c with
    | some capital => capital.toList
    | none => [c.toUpper])

/-- Whether a level shows the records. -/
def showsRecords : Option String → Except LevelError Bool
  | none => .error .empty
  | some level =>
    let name := capitals level
    if name = "BASIC_FORMAT" then .error .layout
    else if name = "_STYLES" then .error .layouts
    else .ok (name = "DEBUG" || name = "NOTSET")

end ParseChart.CommandLine
