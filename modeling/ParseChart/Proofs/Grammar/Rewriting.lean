import Mathlib.Logic.Relation
import ParseChart.Grammar
/-!
# Rewriting

Strings of symbols, words among them, in which a left side may give way to its right side anywhere.
-/

namespace ParseChart.Grammar

/-- One symbol is rewritten by a rule. -/
inductive Rewrites (g : Grammar) : List String → List String → Prop
  | rule (before after : List String) {s : Rule} : s ∈ g.rules →
      Rewrites g (before ++ s.lhs :: after) (before ++ (s.rhs ++ after))

def Derives (g : Grammar) : List String → List String → Prop := Relation.ReflTransGen g.Rewrites

variable {g : Grammar} {α β γ : List String}

theorem Derives.refl (α : List String) : g.Derives α α := Relation.ReflTransGen.refl

theorem Derives.trans (h : g.Derives α β) (h' : g.Derives β γ) : g.Derives α γ := Relation.ReflTransGen.trans h h'

theorem derives_rule {s : Rule} (hs : s ∈ g.rules) : g.Derives [s.lhs] s.rhs := by
  have h := Rewrites.rule [] [] hs
  rw [List.append_nil] at h
  exact Relation.ReflTransGen.single h

/-- What is left and right of a derivation stays. -/
theorem Derives.context (h : g.Derives α β) (before after : List String) :
    g.Derives (before ++ (α ++ after)) (before ++ (β ++ after)) := by
  induction h with
  | refl => exact .refl _
  | tail _ hr ih =>
    obtain ⟨b, a, hs⟩ := hr
    have h := Rewrites.rule (before ++ b) (a ++ after) hs
    simp only [List.append_assoc, List.cons_append] at h ih ⊢
    exact Relation.ReflTransGen.tail ih h

end ParseChart.Grammar
