import ParseChart.Buckets
import ParseChart.Text.Quoted
/-!
# Grammars

A context-free grammar is made from a list of rules and a start symbol. Repeated rules count once,
and rules stand in groups by their left sides, in the order in which each came first. A symbol
without rules is a terminal. Two indices serve parsers that work upwards: rules by the one word,
and by the two symbols, of their right sides.
-/

namespace ParseChart

structure Rule where
  lhs : String
  rhs : List String
  deriving DecidableEq, Repr

namespace Rule

def display (r : Rule) : String :=
  r.lhs ++ " -> " ++ if r.rhs.isEmpty then "ε" else " ".intercalate r.rhs

/-- The right side of a rule `A → a`. -/
def word? (terminal : String → Bool) (r : Rule) : Option String :=
  match r.rhs with
  | [a] => if terminal a then some a else none
  | _ => none

/-- The right side of a rule `A → B C`. -/
def pair? (terminal : String → Bool) (r : Rule) : Option (String × String) :=
  match r.rhs with
  | [b, c] => if terminal b || terminal c then none else some (b, c)
  | _ => none

end Rule

/-- Why a grammar, or a parser for it, is refused. -/
inductive GrammarError
  | noRules
  | unknownStart (symbol : String)
  | emptyRule
  | unitCycle
  | notNormalForm
  deriving DecidableEq, Repr

def GrammarError.message : GrammarError → String
  | .noRules => "A grammar needs at least one rule"
  | .unknownStart symbol => "Start symbol " ++ Text.quoted symbol ++ " has no rules"
  | .emptyRule => "Epsilon (empty) productions are not supported"
  | .unitCycle => "Cyclic unit productions are not supported"
  | .notNormalForm => "CYK parsing needs a grammar in Chomsky normal form"

/-- Rules filed by left side, each once. -/
def groupRules (rules : List Rule) : Buckets String Rule :=
  Buckets.ofList (fun r => some r.lhs) rules.eraseDups

def isTerminalIn (groups : Buckets String Rule) (symbol : String) : Bool := !groups.keys.contains symbol

def wordIndex (groups : Buckets String Rule) : Buckets String Rule :=
  Buckets.ofList (Rule.word? (isTerminalIn groups)) groups.elems

def pairIndex (groups : Buckets String Rule) : Buckets (String × String) Rule :=
  Buckets.ofList (Rule.pair? (isTerminalIn groups)) groups.elems

/-- The indices are kept because parsers read them for every word and every pair of constituents. -/
structure Grammar where
  groups : Buckets String Rule
  start : String
  words : Buckets String Rule := wordIndex groups
  pairs : Buckets (String × String) Rule := pairIndex groups
  grouped : ∃ rules, groups = groupRules rules
  start_mem : start ∈ groups.keys
  words_eq : words = wordIndex groups := by rfl
  pairs_eq : pairs = pairIndex groups := by rfl

namespace Grammar

def ofRules (rules : List Rule) (start : String) : Except GrammarError Grammar :=
  if rules.isEmpty then .error .noRules
  else if h : start ∈ (groupRules rules).keys then
    .ok { groups := groupRules rules, start := start, grouped := ⟨rules, rfl⟩, start_mem := h }
  else .error (.unknownStart start)

variable (g : Grammar)

def rules : List Rule := g.groups.elems

def rulesFor (symbol : String) : List Rule := g.groups.get symbol

def lexicalRulesFor (word : String) : List Rule := g.words.get word

def binaryRulesFor (left right : String) : List Rule := g.pairs.get (left, right)

def nonterminals : List String := g.groups.keys

def isTerminal (symbol : String) : Bool := isTerminalIn g.groups symbol

/-- Every rule is `A → a` for a terminal or `A → B C` for nonterminals. -/
def isNormalForm : Bool :=
  g.rules.all fun r => (r.word? g.isTerminal).isSome || (r.pair? g.isTerminal).isSome

def hasEmptyRule : Bool := g.rules.any (·.rhs.isEmpty)

end Grammar

end ParseChart
