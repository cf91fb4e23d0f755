import ParseChart.Tree
/-!
# Trees as bracketed text

A tree is written flat, `(label child child)`, if that is shorter than the margin where it stands,
and else with each child on a line of its own, two places further in.
-/

namespace ParseChart.Tree

mutual

def flat : Tree → String
  | .word text => text
  | .node label children => "(" ++ label ++ " " ++ " ".intercalate (flatAll children) ++ ")"

def flatAll : List Tree → List String
  | [] => []
  | t :: ts => flat t :: flatAll ts

end

def newline (indent : Nat) : String := "\n" ++ String.ofList (List.replicate indent ' ')

mutual

/-- A word has no parts and stands as it is, whatever its length. -/
def layout (margin : Int) (indent : Nat) : Tree → String
  | .word text => text
  | .node label children =>
    let line := flat (.node label children)
    if line.length + indent < margin then line
    else "(" ++ label ++ layoutAll margin (indent + 2) children ++ ")"

def layoutAll (margin : Int) (indent : Nat) : List Tree → String
  | [] => ""
  | t :: ts => newline indent ++ layout margin indent t ++ layoutAll margin indent ts

end

/-- A tree from the left edge. -/
def bracketed (margin : Int) (t : Tree) : String := t.layout margin 0

end ParseChart.Tree
