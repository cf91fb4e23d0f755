import ParseChart.Proofs.Derivation
import ParseChart.Proofs.Grammar.Rules
/-!
# Derivation trees of a grammar in normal form

In normal form a derivation tree is a word under its rule, or two trees side by side under theirs.
`Derived` builds the trees over the words between two positions that way, and they are all there are.
-/

namespace ParseChart

open ChartItem

inductive Derived (g : Grammar) (w : List String) : String → Nat → Nat → Tree → Prop
  | word {a b : String} {i : Nat} : ⟨a, [b]⟩ ∈ g.rules → g.isTerminal b = true → w[i]? = some b →
      Derived g w a i (i + 1) (.node a [.word b])
  | pair {a b c : String} {i m j : Nat} {t u : Tree} : ⟨a, [b, c]⟩ ∈ g.rules → Derived g w b i m t →
      Derived g w c m j u → Derived g w a i j (.node a [t, u])

namespace Derived

variable {g : Grammar} {w : List String} {a : String} {i j k l : Nat} {t : Tree}

theorem root (h : Derived g w a i j t) : t.root = a := by
  cases h <;> rfl

theorem isTerminal (h : Derived g w a i j t) : g.isTerminal a = false := by
  cases h with
  | word hr => exact Grammar.isTerminal_eq_false hr
  | pair hr => exact Grammar.isTerminal_eq_false hr

/-- No tree is over an empty span. -/
theorem bounds (h : Derived g w a i j t) : i < j ∧ j ≤ w.length := by
  induction h with
  | word _ _ hw =>
    have := (List.getElem?_eq_some_iff.1 hw).1
    omega
  | pair _ _ _ ih ih' => omega

theorem parses (h : Derived g w a i j t) : g.Parses a (slice w i j) t := by
  induction h with
  | word hr ht hw =>
    rw [slice_succ hw]
    exact Grammar.parses_node.2 ⟨rfl, hr, by simp [Tree.obeysAll, Tree.obeys, ht], rfl⟩
  | pair hr ht hu ih ih' =>
    rw [← slice_append (Nat.le_of_lt ht.bounds.1) (Nat.le_of_lt hu.bounds.1)]
    refine Grammar.parses_node.2 ⟨rfl, ?_, ?_, ?_⟩
    · simpa [ht.root, hu.root] using hr
    · simp [Tree.obeysAll, ih.obeys, ih'.obeys]
    · simp [Tree.leavesAll, ih.leaves, ih'.leaves]

theorem length_leaves (h : Derived g w a i j t) : i + t.leaves.length = j := by
  have hb := h.bounds
  rw [h.parses.leaves, length_slice hb.2]
  omega

theorem item_over (h : Derived g w a i j t) (k : Kind) : Over (t.item k i) i j := by
  have hover := h.parses.item_over k i
  rwa [← h.parses.leaves, h.length_leaves] at hover

end Derived

variable {g : Grammar} {w : List String}

/-- In normal form the children of a node are a word, or two inner nodes. -/
theorem children_of_obeys (h : g.isNormalForm = true) {a : String} {ts : List Tree}
    (hr : ⟨a, ts.map Tree.root⟩ ∈ g.rules) (ho : Tree.obeysAll g ts = true) :
    (∃ b, ts = [.word b] ∧ ⟨a, [b]⟩ ∈ g.rules ∧ g.isTerminal b = true) ∨
      ∃ t u, ts = [t, u] ∧ ⟨a, [t.root, u.root]⟩ ∈ g.rules ∧ g.isTerminal t.root = false ∧
        g.isTerminal u.root = false := by
  rcases Grammar.normalForm_cases h hr with ⟨b, hb, ht⟩ | ⟨b, c, hbc, htb, htc⟩
  · obtain ⟨t, rfl, rfl⟩ := List.map_eq_singleton_iff.1 hb
    left
    cases t with
    | word b => exact ⟨b, rfl, hr, ht⟩
    | node s us =>
      -- The root of an inner node is no terminal.
      simp only [Tree.obeysAll, Tree.obeys, Bool.and_eq_true, decide_eq_true_eq] at ho
      exact absurd ((Grammar.isTerminal_eq_false ho.1.1).symm.trans ht) (by decide)
  · right
    obtain ⟨t, us, rfl, rfl, hus⟩ := List.map_eq_cons_iff.1 hbc
    obtain ⟨u, rfl, rfl⟩ := List.map_eq_singleton_iff.1 hus
    exact ⟨t, u, rfl, hr, htb, htc⟩

theorem derived_of_obeys (h : g.isNormalForm = true) (t : Tree) {i j : Nat} (ho : t.obeys g = true)
    (hn : g.isTerminal t.root = false) (hl : t.leaves = slice w i j) (hij : i ≤ j) (hj : j ≤ w.length) :
    Derived g w t.root i j t := by
  cases t with
  | word b => exact absurd (hn.symm.trans ho) (by decide)
  | node a ts =>
    simp only [Tree.obeys, Bool.and_eq_true, decide_eq_true_eq] at ho
    rcases children_of_obeys h ho.1 ho.2 with ⟨b, rfl, hr, ht⟩ | ⟨t, u, rfl, hr, htt, htu⟩
    · have hlen := congrArg List.length hl
      rw [length_slice hj] at hlen
      obtain rfl : j = i + 1 := by simp [Tree.leaves, Tree.leavesAll] at hlen; omega
      exact .word hr ht (getElem?_of_slice hl.symm)
    · have hot := ho.2
      simp only [Tree.obeysAll, Bool.and_eq_true] at hot
      obtain ⟨hm, hlt, hlu⟩ := slice_eq_append hj (show t.leaves ++ Tree.leavesAll [u] = slice w i j from hl) hij
      have hlu : u.leaves = slice w (i + t.leaves.length) j := by simpa [Tree.leavesAll] using hlu
      exact .pair hr (derived_of_obeys h t hot.1 htt hlt (Nat.le_add_right _ _) (by omega))
        (derived_of_obeys h u hot.2.1 htu hlu hm hj)
termination_by t

/-- The trees over the words between two positions are the derivation trees of these words. -/
theorem derived_iff_parses (h : g.isNormalForm = true) {a : String} {i j : Nat} {t : Tree} (hij : i ≤ j)
    (hj : j ≤ w.length) : Derived g w a i j t ↔ g.Parses a (slice w i j) t := by
  refine ⟨Derived.parses, fun ht => ?_⟩
  obtain ⟨ts, rfl⟩ := ht.root
  exact derived_of_obeys h _ ht.obeys (Grammar.isTerminal_eq_false (Grammar.parses_node.1 ht).2.1) ht.leaves hij hj

end ParseChart
