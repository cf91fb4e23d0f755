import ParseChart.Grammar
/-!
# Cycles of unit rules

A unit rule `A → B` has one nonterminal on its right side. The unit rules are the edges of a graph,
and a nonterminal derives itself by unit rules alone iff that graph has a cycle through it. To find
one, a walk sets out from each symbol that an edge leaves. Symbols still to be visited wait on a
stack, each is followed up only once, and the walk ends when it is back where it set out or nothing
waits any more.
-/

namespace ParseChart

abbrev Edge := String × String

/-- Under each symbol those to which its edges lead. -/
abbrev Graph := Buckets String String

namespace Graph

/-- The number of edges that leave symbols not seen yet. -/
def unseen (graph : Graph) (seen : List String) : Nat :=
  (Buckets.elems (graph.filter fun b => b.key ∉ seen)).length

/-- To see a symbol uses up its edges. -/
theorem unseen_cons (graph : Graph) {seen : List String} {a : String} (h : a ∉ seen) :
    unseen graph (a :: seen) + (graph.get a).length ≤ unseen graph seen := by
  induction graph with
  | nil => simp [unseen, Buckets.get, Buckets.elems]
  | cons b rest ih =>
    simp only [unseen, Buckets.elems, List.filter_cons, List.mem_cons, Buckets.get, beq_iff_eq] at ih ⊢
    by_cases hb : b.key = a
    · simp [hb, h] at ih ⊢
      omega
    · by_cases hs : b.key ∈ seen <;> simp [hb, hs] at ih ⊢ <;> omega

/-- Whether a walk comes back to `origin`, with these symbols waiting. -/
def comesBack (graph : Graph) (origin : String) (seen : List String) : List String → Bool
  | [] => false
  | a :: waiting =>
    if a = origin then true
    else if a ∈ seen then comesBack graph origin seen waiting
    -- The symbol put on the stack last is visited first.
    else comesBack graph origin (a :: seen) ((graph.get a).reverse ++ waiting)
termination_by waiting => graph.unseen seen + waiting.length
decreasing_by
  · simp
  · have := graph.unseen_cons ‹a ∉ seen›
    simp only [List.length_append, List.length_reverse, List.length_cons]
    omega

def hasCycle (graph : Graph) : Bool :=
  graph.keys.any fun origin => comesBack graph origin [] (graph.get origin).reverse

end Graph

namespace Grammar

def unitEdge? (g : Grammar) (r : Rule) : Option Edge :=
  match r.rhs with
  | [b] => if g.isTerminal b then none else some (r.lhs, b)
  | _ => none

def unitGraph (g : Grammar) : Graph :=
  (g.rules.filterMap g.unitEdge?).foldl (fun graph e => graph.add e.1 e.2) []

def hasUnitCycle (g : Grammar) : Bool := g.unitGraph.hasCycle

end Grammar

end ParseChart
