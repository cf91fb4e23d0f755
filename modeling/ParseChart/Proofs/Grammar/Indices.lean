import Mathlib.Data.Set.Subsingleton
import ParseChart.Proofs.Grammar.Grouping
/-!
# The indices of a grammar

The rules under a word and those under a pair of symbols are what a scan of all rules finds. No rule is
under two of these keys, and a grammar is in normal form iff none is left out.
-/

namespace ParseChart.Grammar

variable {g : Grammar} {r : Rule}

theorem lexicalRulesFor_eq_scan (g : Grammar) (a : String) :
    g.lexicalRulesFor a = if a ∈ g.nonterminals then [] else g.rules.filter fun r => r.rhs = [a] := by
  rw [lexicalRulesFor_eq_filter]
  cases ha : g.isTerminal a with
  | true => simp [mem_nonterminals, ha]
  | false => simp [mem_nonterminals, ha]

theorem binaryRulesFor_eq_scan (g : Grammar) (b c : String) :
    g.binaryRulesFor b c =
      if b ∈ g.nonterminals ∧ c ∈ g.nonterminals then g.rules.filter fun r => r.rhs = [b, c] else [] := by
  rw [binaryRulesFor_eq_filter]
  by_cases h : g.isTerminal b = false ∧ g.isTerminal c = false
  · simp [mem_nonterminals, h]
  · simp [mem_nonterminals, h]

/-- The list under a word, or under a pair of symbols. -/
def indexed (g : Grammar) : String ⊕ String × String → List Rule
  | .inl a => g.lexicalRulesFor a
  | .inr (b, c) => g.binaryRulesFor b c

/-- A rule under a key is spelled out by it. -/
theorem rhs_of_indexed {k : String ⊕ String × String} (h : r ∈ g.indexed k) :
    r.rhs = k.elim (fun a => [a]) fun p => [p.1, p.2] := by
  cases k with
  | inl a => exact (mem_lexicalRulesFor.1 h).2.1
  | inr p => exact (mem_binaryRulesFor.1 h).2.1

theorem indexed_unique {k l : String ⊕ String × String} (hk : r ∈ g.indexed k) (hl : r ∈ g.indexed l) : k = l := by
  have h := (rhs_of_indexed hk).symm.trans (rhs_of_indexed hl)
  cases k <;> cases l <;> simp_all [Prod.ext_iff]

theorem nodup_indexed (g : Grammar) (k : String ⊕ String × String) : (g.indexed k).Nodup := by
  cases k with
  | inl a =>
    rw [indexed, lexicalRulesFor_eq_filter]
    exact g.nodup_rules.filter _
  | inr p =>
    rw [indexed, binaryRulesFor_eq_filter]
    exact g.nodup_rules.filter _

theorem isNormalForm_iff_indexed : g.isNormalForm = true ↔ ∀ r ∈ g.rules, ∃ k, r ∈ g.indexed k := by
  constructor
  · intro h r hr
    rcases normalForm_cases h hr with ⟨a, ha, hat⟩ | ⟨b, c, hbc, hb, hc⟩
    · exact ⟨.inl a, mem_lexicalRulesFor.2 ⟨hr, ha, hat⟩⟩
    · exact ⟨.inr (b, c), mem_binaryRulesFor.2 ⟨hr, hbc, hb, hc⟩⟩
  · intro h
    refine List.all_eq_true.2 fun r hr => ?_
    rw [Bool.or_eq_true, Option.isSome_iff_exists, Option.isSome_iff_exists]
    obtain ⟨a | ⟨b, c⟩, hk⟩ := h r hr
    · exact .inl ⟨a, word?_eq_some.2 (mem_lexicalRulesFor.1 hk).2⟩
    · exact .inr ⟨(b, c), pair?_eq_some.2 (mem_binaryRulesFor.1 hk).2⟩

/-- Under a word stand, in order, the rules for it, if it is a terminal, and under a pair of symbols those for it, if both
are nonterminals. A rule stands in one of these lists at most, and once; the grammar is in normal form iff each rule
stands in one. -/
theorem indices_scan_rules (g : Grammar) :
    (∀ a, g.lexicalRulesFor a = if a ∈ g.nonterminals then [] else g.rules.filter fun r => r.rhs = [a]) ∧
      (∀ b c, g.binaryRulesFor b c =
        if b ∈ g.nonterminals ∧ c ∈ g.nonterminals then g.rules.filter fun r => r.rhs = [b, c] else []) ∧
      (∀ k, (g.indexed k).Nodup) ∧ (∀ r, {k | r ∈ g.indexed k}.Subsingleton) ∧
      (g.isNormalForm = true ↔ ∀ r ∈ g.rules, ∃ k, r ∈ g.indexed k) :=
  ⟨lexicalRulesFor_eq_scan g, binaryRulesFor_eq_scan g, nodup_indexed g, fun _ _ hk _ hl => indexed_unique hk hl,
    isNormalForm_iff_indexed⟩

end ParseChart.Grammar
