/-!
# Parse trees

A tree is a word, or a symbol over the trees of its constituents.
-/

namespace ParseChart

inductive Tree
  | word (text : String)
  | node (label : String) (children : List Tree)
  deriving Repr, Inhabited

end ParseChart
