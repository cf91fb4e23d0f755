import ParseChart.Proofs.Derivation.Size
import ParseChart.Proofs.Earley.Parses
import ParseChart.Proofs.Grammar.Grouping
/-!
# The size of complete items

A complete item of a rule spans one word or more, and its tree has that many leaves. A grammar that the
parser accepts gives such a tree no more than `2 * n - 1` inner nodes for each nonterminal, if `n` is the
number of words, so that only finitely many complete items fit into a span.
-/

namespace ParseChart.Earley

open ChartItem

variable {g : Grammar} {start : Option String} {p : Earley} {w : List String} {r : Rule} {x : Item} {i j : Nat} {t : Tree}

/-- The item lies over `i..j`, a word or more, and its tree is not larger than words and nonterminals allow. -/
structure Bounded (g : Grammar) (x : Item) (i j : Nat) (t : Tree) : Prop where
  spans : Over x i j
  pos : 1 ≤ j - i
  tree : x.tree? = some t
  leaves : t.leaves.length = j - i
  size : t.size ≤ g.nonterminals.length * (2 * (j - i) - 1)

/-- A charted item that completes a rule of the grammar is that of a derivation tree over a word or more. -/
theorem Charted.exists_tree {predicted : Nat → String → Prop} (hne : p.grammar.hasEmptyRule = false)
    (hx : Charted p w predicted x) (hr : r ∈ p.grammar.rules) (hrule : x.rule? = some r)
    (hcomplete : x.isComplete? = some true) :
    ∃ i j t, i < j ∧ j ≤ w.length ∧ p.grammar.Parses r.lhs (slice w i j) t ∧ x = t.item .earley i := by
  obtain ⟨r', d, i, j, cs, rfl, hd, -, hj, -, hsp⟩ := hx
  obtain rfl : r' = r := Option.some.inj hrule
  obtain rfl : d = r'.rhs.length := by
    have := of_decide_eq_true (Option.some.inj hcomplete)
    omega
  rw [List.take_length] at hsp
  have hwide := hsp.length_le hne
  have hpos := List.length_pos_iff.2 (Grammar.hasEmptyRule_eq_false.1 hne _ hr)
  obtain ⟨t, ht, he⟩ := exists_tree_of_spells hr hsp
  exact ⟨i, j, t, by omega, hj, ht, he⟩

/-- The item of a derivation tree over a span, by the bound for its tree. -/
theorem bounded_item (hne : g.hasEmptyRule = false) (hcyc : g.hasUnitCycle = false) (hij : i < j) (hj : j ≤ w.length)
    {a : String} (ht : g.Parses a (slice w i j) t) : Bounded g (t.item .earley i) i j t := by
  have hlen := length_slice (i := i) hj
  have hleaves : t.leaves.length = j - i := by rw [ht.leaves, hlen]
  have hover := ht.item_over .earley i
  rw [hlen, Nat.add_sub_cancel' (Nat.le_of_lt hij)] at hover
  exact {
    spans := hover
    pos := Nat.sub_pos_of_lt hij
    tree := ht.tree?_item .earley i
    leaves := hleaves
    size := hleaves ▸ Tree.size_le hne hcyc ht.obeys }

/-- On the finished chart every complete item of a rule is wide enough to have the words of its tree, and the tree
not larger than words and nonterminals allow. -/
theorem complete_items_bounded (hp : ofGrammar g start = .ok p) (htop : ∀ r ∈ g.rules, topSymbol ∉ r.rhs)
    (hstart : p.start ≠ topSymbol) (w : List String) :
    g.nonterminals.Nodup ∧ ∃ c, p.Finishes w c ∧ ∀ x ∈ c, ∀ r ∈ g.rules, x.rule? = some r →
      x.isComplete? = some true → ∃ i j t, Bounded g x i j t := by
  obtain ⟨h, rfl⟩ := proper_of_ofGrammar hp htop hstart
  obtain ⟨c, hends, -, -, hm⟩ := h.fill w
  refine ⟨Grammar.nodup_nonterminals _, c, finishes_of_ends hends, fun x hx r hr hrule hcomplete => ?_⟩
  obtain ⟨i, j, t, hij, hj, ht, rfl⟩ := ((hm x).1 hx).exists_tree h.noEmptyRule hr hrule hcomplete
  exact ⟨i, j, t, bounded_item h.noEmptyRule h.noUnitCycle hij hj ht⟩

/-- The tree of two words, doubled from one nonterminal, is on the chart and as large as can be. -/
theorem complete_items_bounded_doubling :
    (ofGrammar .doubling none = .ok ⟨.doubling, "S"⟩ ∧ (∀ r ∈ Grammar.doubling.rules, topSymbol ∉ r.rhs) ∧
        "S" ≠ topSymbol) ∧
      ∃ c, Finishes ⟨.doubling, "S"⟩ ["a", "a"] c ∧
        ∃ x ∈ c, ∃ t, Bounded .doubling x 0 2 t ∧ t.size = Grammar.doubling.nonterminals.length * (2 * 2 - 1) := by
  refine ⟨⟨ofGrammar_doubling, by decide, by decide⟩, ?_⟩
  obtain ⟨-, c, hc, hall⟩ := complete_items_bounded ofGrammar_doubling (by decide) (by decide) ["a", "a"]
  obtain ⟨h, -⟩ := proper_of_ofGrammar ofGrammar_doubling (by decide) (by decide)
  obtain ⟨c', hends, -, -, hm⟩ := h.fill ["a", "a"]
  obtain rfl := hc.unique (finishes_of_ends hends)
  let t : Tree := .node "S" [.node "S" [.word "a"], .node "S" [.word "a"]]
  have ht : Grammar.doubling.Parses "S" ["a", "a"] t := ⟨⟨_, rfl⟩, by decide, rfl⟩
  have hx : t.item .earley 0 ∈ c := (hm _).2 (charted_of_parses (p := ⟨.doubling, "S"⟩) ht)
  obtain ⟨i, j, u, hu⟩ := hall _ hx ⟨"S", ["S", "S"]⟩ (by decide) rfl rfl
  obtain ⟨rfl, rfl⟩ := hu.spans.unique (ht.item_over .earley 0)
  obtain rfl : u = t := Option.some.inj (hu.tree.symm.trans (ht.tree?_item .earley 0))
  exact ⟨c, hc, _, hx, t, hu, rfl⟩

end ParseChart.Earley
