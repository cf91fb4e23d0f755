import ParseChart.Grammar
/-!
# A small English grammar

In normal form. A prepositional phrase may attach to a noun phrase or to a verb phrase, so some
sentences have several trees.
-/

namespace ParseChart.Grammar

def englishRules : List Rule :=
  [⟨"S", ["NP", "VP"]⟩,
   ⟨"NP", ["Det", "N"]⟩,
   ⟨"NP", ["NP", "PP"]⟩,
   ⟨"VP", ["V", "NP"]⟩,
   ⟨"VP", ["VP", "PP"]⟩,
   ⟨"VP", ["sleeps"]⟩,
   ⟨"PP", ["P", "NP"]⟩,
   ⟨"Det", ["the"]⟩,
   ⟨"Det", ["a"]⟩,
   ⟨"N", ["cat"]⟩,
   ⟨"N", ["mat"]⟩,
   ⟨"N", ["dog"]⟩,
   ⟨"N", ["telescope"]⟩,
   ⟨"V", ["likes"]⟩,
   ⟨"V", ["saw"]⟩,
   ⟨"P", ["on"]⟩,
   ⟨"P", ["with"]⟩]

def english : Grammar where
  groups := groupRules englishRules
  start := "S"
  grouped := ⟨englishRules, rfl⟩
  start_mem := by decide

end ParseChart.Grammar
