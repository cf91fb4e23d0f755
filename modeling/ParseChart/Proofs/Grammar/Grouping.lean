import ParseChart.Proofs.Buckets.Keys
import ParseChart.Proofs.Grammar.Rules
/-!
# Rules in groups

A grammar keeps of the rules that it is made from, for each left side, those that come there for the first
time, and its groups in the order in which their left sides first came. So rules for different left sides
may be mixed in any way, and the rules of a grammar make that grammar again.
-/

namespace ParseChart

theorem get_groupRules (rules : List Rule) (a : String) :
    (groupRules rules).get a = (rules.filter fun r => r.lhs = a).eraseDups := by
  unfold groupRules
  rw [Buckets.get_ofList, filter_eraseDups]
  congr 1

theorem keys_groupRules (rules : List Rule) : (groupRules rules).keys = (rules.map Rule.lhs).eraseDups := by
  unfold groupRules
  rw [Buckets.keys_ofList, List.filterMap_eq_map', eraseDups_map_eraseDups]

theorem keyed_groupRules (rules : List Rule) : Buckets.Keyed (fun r => some r.lhs) (groupRules rules) :=
  Buckets.keyed_ofList _ _

/-- Only the order within each left side and the order of the left sides count. -/
theorem groupRules_congr {rules rules' : List Rule}
    (hgroups : ∀ a, (rules.filter fun r => r.lhs = a) = rules'.filter fun r => r.lhs = a)
    (hkeys : (rules.map Rule.lhs).eraseDups = (rules'.map Rule.lhs).eraseDups) : groupRules rules = groupRules rules' := by
  refine (keyed_groupRules rules).ext (keyed_groupRules rules') ?_ fun a => ?_
  · rw [keys_groupRules, keys_groupRules, hkeys]
  · rw [get_groupRules, get_groupRules, hgroups]

theorem nodup_groupRules (rules : List Rule) : (groupRules rules).elems.Nodup :=
  Buckets.nodup_elems_ofList (firstOccurrences_eraseDups rules).nodup

theorem groupRules_elems (rules : List Rule) : groupRules (groupRules rules).elems = groupRules rules := by
  conv_lhs => rw [groupRules, eraseDups_of_nodup (nodup_groupRules rules)]
  exact (keyed_groupRules rules).ofList_elems

namespace Grammar

variable {g : Grammar} {rules rules' : List Rule} {start : String}

theorem nodup_rules (g : Grammar) : g.rules.Nodup := by
  obtain ⟨rules, h⟩ := g.grouped
  rw [Grammar.rules, h]
  exact nodup_groupRules rules

theorem nodup_nonterminals (g : Grammar) : g.nonterminals.Nodup := by
  obtain ⟨rules, h⟩ := g.grouped
  rw [nonterminals, h, keys_groupRules]
  exact (firstOccurrences_eraseDups _).nodup

/-! ## Making a grammar -/

theorem ofRules_eq_noRules : ofRules rules start = .error .noRules ↔ rules = [] := by
  unfold ofRules
  cases rules with
  | nil => simp
  | cons r rules =>
    simp only [List.isEmpty_cons, Bool.false_eq_true, if_false, reduceCtorEq, iff_false]
    split <;> simp

theorem ofRules_eq_unknownStart {a : String} :
    ofRules rules start = .error (.unknownStart a) ↔ rules ≠ [] ∧ a = start ∧ ∀ r ∈ rules, r.lhs ≠ start := by
  unfold ofRules
  cases rules with
  | nil => simp
  | cons r rules =>
    simp only [List.isEmpty_cons, Bool.false_eq_true, if_false]
    by_cases h : start ∈ (groupRules (r :: rules)).keys
    · obtain ⟨s, hs, he⟩ := mem_keys_groupRules.1 h
      rw [dif_pos h]
      simp only [reduceCtorEq, false_iff]
      rintro ⟨-, -, hn⟩
      exact hn s hs he
    · rw [dif_neg h]
      have hn : ∀ s ∈ r :: rules, s.lhs ≠ start := fun s hs he => h (mem_keys_groupRules.2 ⟨s, hs, he⟩)
      simp only [Except.error.injEq, GrammarError.unknownStart.injEq]
      constructor
      · rintro rfl
        exact ⟨List.cons_ne_nil _ _, rfl, hn⟩
      · rintro ⟨-, rfl, -⟩
        rfl

theorem ofRules_congr (h : groupRules rules = groupRules rules') : ofRules rules start = ofRules rules' start := by
  have hmem : ∀ r, r ∈ rules ↔ r ∈ rules' := fun r => by rw [← mem_groupRules, h, mem_groupRules]
  have hempty : rules.isEmpty = rules'.isEmpty := by
    rw [Bool.eq_iff_iff, List.isEmpty_iff, List.isEmpty_iff]
    simp only [List.eq_nil_iff_forall_not_mem, hmem]
  unfold ofRules
  simp only [h, hempty]

/-- What a grammar keeps of the rules that it is made from. -/
structure MadeOf (g : Grammar) (rules : List Rule) (start : String) : Prop where
  start_eq : g.start = start
  groups : ∀ a, FirstOccurrences (rules.filter fun r => r.lhs = a) (g.rulesFor a)
  nonterminals : FirstOccurrences (rules.map Rule.lhs) g.nonterminals
  rules_eq : g.rules = g.nonterminals.flatMap g.rulesFor
  mem_rules : ∀ r, r ∈ g.rules ↔ r ∈ rules
  again : ofRules g.rules start = .ok g

theorem groups_of_ofRules (h : ofRules rules start = .ok g) : g.groups = groupRules rules := by
  unfold ofRules at h
  split at h
  · cases h
  · split at h
    · cases h
      rfl
    · cases h

theorem madeOf_of_ofRules (h : ofRules rules start = .ok g) : g.MadeOf rules start := by
  obtain ⟨hstart, hmem⟩ := of_ofRules h
  have hgroups := groups_of_ofRules h
  refine ⟨hstart, fun a => ?_, ?_, g.keyed_groups.elems_eq_flatMap, hmem, ?_⟩
  · unfold rulesFor
    rw [hgroups, get_groupRules]
    exact firstOccurrences_eraseDups _
  · unfold nonterminals
    rw [hgroups, keys_groupRules]
    exact firstOccurrences_eraseDups _
  · rw [← h]
    apply ofRules_congr
    rw [Grammar.rules, hgroups, groupRules_elems]

/-- No grammar is made of no rules, nor for a start symbol without rules. Otherwise the rules of each left side are those
of the list at their first places, the groups come as their left sides first come, and the rules so ordered make the same
grammar. So does any list with the same rules for each left side in the same order, if the left sides first come in the
same order. -/
theorem ofRules_normalises (rules rules' : List Rule) (start : String) :
    (ofRules rules start = .error .noRules ↔ rules = []) ∧
      (ofRules rules start = .error (.unknownStart start) ↔ rules ≠ [] ∧ ∀ r ∈ rules, r.lhs ≠ start) ∧
      ((∃ r ∈ rules, r.lhs = start) → ∃ g, ofRules rules start = .ok g ∧ g.MadeOf rules start) ∧
      ((∀ a, (rules'.filter fun r => r.lhs = a) = rules.filter fun r => r.lhs = a) →
        (rules'.map Rule.lhs).eraseDups = (rules.map Rule.lhs).eraseDups → ofRules rules' start = ofRules rules start) := by
  refine ⟨ofRules_eq_noRules, by simp [ofRules_eq_unknownStart], fun hstart => ?_, fun hgroups hkeys => ?_⟩
  · obtain ⟨g, hg⟩ := exists_ofRules.2 hstart
    exact ⟨g, hg, madeOf_of_ofRules hg⟩
  · exact ofRules_congr (groupRules_congr hgroups hkeys)

/-- Rules for two left sides, some twice, mixed. -/
def mixedRules : List Rule :=
  [⟨"S", ["A", "B"]⟩, ⟨"A", ["a"]⟩, ⟨"S", ["c"]⟩, ⟨"A", ["b"]⟩, ⟨"S", ["A", "B"]⟩, ⟨"A", ["a"]⟩]

/-- The rules for one left side before those for the other. -/
def sortedRules : List Rule :=
  [⟨"S", ["A", "B"]⟩, ⟨"S", ["c"]⟩, ⟨"S", ["A", "B"]⟩, ⟨"A", ["a"]⟩, ⟨"A", ["b"]⟩, ⟨"A", ["a"]⟩]

theorem ofRules_normalises_mixed :
    ((∃ r ∈ mixedRules, r.lhs = "S") ∧ (∀ a, (sortedRules.filter fun r => r.lhs = a) = mixedRules.filter fun r => r.lhs = a) ∧
        (sortedRules.map Rule.lhs).eraseDups = (mixedRules.map Rule.lhs).eraseDups) ∧
      ∃ g, ofRules mixedRules "S" = .ok g ∧ g.MadeOf mixedRules "S" ∧ ofRules sortedRules "S" = .ok g ∧
        g.rules = [⟨"S", ["A", "B"]⟩, ⟨"S", ["c"]⟩, ⟨"A", ["a"]⟩, ⟨"A", ["b"]⟩] := by
  have hstart : ∃ r ∈ mixedRules, r.lhs = "S" := by decide
  have hgroups : ∀ a, (sortedRules.filter fun r => r.lhs = a) = mixedRules.filter fun r => r.lhs = a := by
    intro a
    by_cases hs : "S" = a
    · subst hs
      rfl
    · by_cases ha : "A" = a <;> simp [sortedRules, mixedRules, hs, ha]
  have hkeys : (sortedRules.map Rule.lhs).eraseDups = (mixedRules.map Rule.lhs).eraseDups := by decide
  obtain ⟨-, -, hmade, hsame⟩ := ofRules_normalises mixedRules sortedRules "S"
  obtain ⟨g, hg, h⟩ := hmade hstart
  refine ⟨⟨hstart, hgroups, hkeys⟩, g, hg, h, (hsame hgroups hkeys).trans hg, ?_⟩
  cases hg
  decide

end Grammar

end ParseChart
