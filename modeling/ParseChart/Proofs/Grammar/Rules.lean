import ParseChart.Grammar
import ParseChart.Proofs.Buckets
/-!
# The rules of a grammar

What each question to a grammar answers, said of the list of its rules.
-/

namespace ParseChart.Grammar

theorem keyed_groups (g : Grammar) : Buckets.Keyed (fun r : Rule => some r.lhs) g.groups := by
  obtain ⟨rules, h⟩ := g.grouped
  rw [h]
  exact Buckets.keyed_ofList _ _

theorem mem_groupRules {rules : List Rule} {r : Rule} : r ∈ (groupRules rules).elems ↔ r ∈ rules := by
  simp [groupRules, Buckets.mem_elems_ofList]

theorem mem_keys_groupRules {rules : List Rule} {a : String} :
    a ∈ (groupRules rules).keys ↔ ∃ r ∈ rules, r.lhs = a := by
  have hkeyed : Buckets.Keyed (fun r : Rule => some r.lhs) (groupRules rules) := Buckets.keyed_ofList _ _
  simp [hkeyed.mem_keys, mem_groupRules]

/-- A grammar is made of rules among which one is for the start symbol. -/
theorem exists_ofRules {rules : List Rule} {start : String} :
    (∃ g, ofRules rules start = .ok g) ↔ ∃ r ∈ rules, r.lhs = start := by
  rw [← mem_keys_groupRules]
  unfold ofRules
  constructor
  · rintro ⟨g, hg⟩
    split at hg
    · cases hg
    · split at hg
      · assumption
      · cases hg
  · intro h
    have hne : rules.isEmpty = false := by
      rw [List.isEmpty_eq_false_iff]
      rintro rfl
      cases h
    rw [if_neg (by simp [hne]), dif_pos h]
    exact ⟨_, rfl⟩

theorem of_ofRules {rules : List Rule} {start : String} {g : Grammar} (h : ofRules rules start = .ok g) :
    g.start = start ∧ ∀ r, r ∈ g.rules ↔ r ∈ rules := by
  unfold ofRules at h
  split at h
  · cases h
  · split at h
    · cases h
      exact ⟨rfl, fun r => mem_groupRules⟩
    · cases h

variable {g : Grammar}

theorem mem_rulesFor {a : String} {r : Rule} : r ∈ g.rulesFor a ↔ r ∈ g.rules ∧ r.lhs = a := by
  unfold rulesFor
  rw [g.keyed_groups.get_eq_filter, List.mem_filter, rules]
  simp

theorem isTerminal_iff {a : String} : g.isTerminal a = true ↔ ∀ r ∈ g.rules, r.lhs ≠ a := by
  unfold isTerminal isTerminalIn
  rw [Bool.not_eq_true', ← Bool.not_eq_true, List.contains_iff_mem, g.keyed_groups.mem_keys]
  simp [rules]

theorem isTerminal_eq_false {r : Rule} (h : r ∈ g.rules) : g.isTerminal r.lhs = false := by
  rw [← Bool.not_eq_true, isTerminal_iff]
  exact fun hn => hn r h rfl

theorem mem_nonterminals {a : String} : a ∈ g.nonterminals ↔ g.isTerminal a = false := by
  simp [nonterminals, isTerminal, isTerminalIn]

theorem word?_eq_some {r : Rule} {a : String} :
    r.word? g.isTerminal = some a ↔ r.rhs = [a] ∧ g.isTerminal a = true := by
  obtain ⟨lhs, rhs⟩ := r
  match rhs with
  | [] => simp [Rule.word?]
  | [b] =>
    by_cases hb : g.isTerminal b = true
    · simp only [Rule.word?, hb, if_true, Option.some.injEq, List.cons.injEq, and_true]
      exact ⟨fun h => ⟨h, h ▸ hb⟩, And.left⟩
    · simp only [Rule.word?, hb, if_false, reduceCtorEq, List.cons.injEq, and_true, false_iff]
      rintro ⟨rfl, h⟩
      exact hb h
  | _ :: _ :: _ => simp [Rule.word?]

theorem pair?_eq_some {r : Rule} {b c : String} :
    r.pair? g.isTerminal = some (b, c) ↔ r.rhs = [b, c] ∧ g.isTerminal b = false ∧ g.isTerminal c = false := by
  obtain ⟨lhs, rhs⟩ := r
  match rhs with
  | [] | [_] | _ :: _ :: _ :: _ => simp [Rule.pair?]
  | [b', c'] =>
    simp only [Rule.pair?, Option.ite_none_left_eq_some, Bool.or_eq_true, not_or, Bool.not_eq_true, Option.some.injEq,
      Prod.mk.injEq, List.cons.injEq, and_true]
    constructor
    · rintro ⟨⟨hb, hc⟩, rfl, rfl⟩
      exact ⟨⟨rfl, rfl⟩, hb, hc⟩
    · rintro ⟨⟨rfl, rfl⟩, hb, hc⟩
      exact ⟨⟨hb, hc⟩, rfl, rfl⟩

theorem lexicalRulesFor_eq_filter (a : String) :
    g.lexicalRulesFor a = g.rules.filter fun r => r.rhs = [a] ∧ g.isTerminal a = true := by
  unfold lexicalRulesFor
  rw [g.words_eq]
  refine (Buckets.get_ofList _ _ _).trans (List.filter_congr fun r _ => ?_)
  rw [Bool.eq_iff_iff, decide_eq_true_eq, ← word?_eq_some, Option.any_eq_true]
  simp only [beq_iff_eq, exists_eq_right]
  rfl

theorem binaryRulesFor_eq_filter (b c : String) :
    g.binaryRulesFor b c =
      g.rules.filter fun r => r.rhs = [b, c] ∧ g.isTerminal b = false ∧ g.isTerminal c = false := by
  unfold binaryRulesFor
  rw [g.pairs_eq]
  refine (Buckets.get_ofList _ _ _).trans (List.filter_congr fun r _ => ?_)
  rw [Bool.eq_iff_iff, decide_eq_true_eq, ← pair?_eq_some, Option.any_eq_true]
  simp only [beq_iff_eq, exists_eq_right]
  rfl

theorem mem_lexicalRulesFor {a : String} {r : Rule} :
    r ∈ g.lexicalRulesFor a ↔ r ∈ g.rules ∧ r.rhs = [a] ∧ g.isTerminal a = true := by
  rw [lexicalRulesFor_eq_filter, List.mem_filter, decide_eq_true_eq]

theorem mem_binaryRulesFor {b c : String} {r : Rule} :
    r ∈ g.binaryRulesFor b c ↔
      r ∈ g.rules ∧ r.rhs = [b, c] ∧ g.isTerminal b = false ∧ g.isTerminal c = false := by
  rw [binaryRulesFor_eq_filter, List.mem_filter, decide_eq_true_eq]

/-- In normal form a rule is `A → a` for a terminal or `A → B C` for nonterminals. -/
theorem normalForm_cases (h : g.isNormalForm = true) {r : Rule} (hr : r ∈ g.rules) :
    (∃ a, r.rhs = [a] ∧ g.isTerminal a = true) ∨
      ∃ b c, r.rhs = [b, c] ∧ g.isTerminal b = false ∧ g.isTerminal c = false := by
  have := List.all_eq_true.1 h r hr
  rw [Bool.or_eq_true, Option.isSome_iff_exists, Option.isSome_iff_exists] at this
  rcases this with ⟨a, ha⟩ | ⟨⟨b, c⟩, hbc⟩
  · exact .inl ⟨a, word?_eq_some.1 ha⟩
  · exact .inr ⟨b, c, pair?_eq_some.1 hbc⟩

/-- The left-recursive and ambiguous grammar of one word or more. -/
def doubling : Grammar where
  groups := groupRules [⟨"S", ["S", "S"]⟩, ⟨"S", ["a"]⟩]
  start := "S"
  grouped := ⟨_, rfl⟩
  start_mem := by decide

theorem isNormalForm_doubling : doubling.isNormalForm = true := by decide

theorem hasEmptyRule_eq_false : g.hasEmptyRule = false ↔ ∀ r ∈ g.rules, r.rhs ≠ [] := by
  simp [hasEmptyRule]

end ParseChart.Grammar
