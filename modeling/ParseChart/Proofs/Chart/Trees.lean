import ParseChart.Proofs.Chart.Parses
import ParseChart.Proofs.Chart.Permuted
/-!
# The trees of each kind

The items of one kind on a shared chart stand in the order in which they stand on a chart of that kind
alone. So the trees of a kind are the same there, and they are those of the items of that kind among the
complete items over the whole input, whatever kinds the derivations below these items are of.
-/

namespace ParseChart

/-! ## Items that have a tree -/

namespace Item

mutual

/-- Words, dotted rules and constituents, all the way down. -/
def ofParsers : Item → Bool
  | .word _ => true
  | .earley _ _ _ xs | .cyk _ _ xs => ofParsersAll xs
  | _ => false

def ofParsersAll : List Item → Bool
  | [] => true
  | x :: xs => ofParsers x && ofParsersAll xs

end

mutual

theorem exists_subtree : ∀ x : Item, x.ofParsers = true → ∃ t, x.subtree? = some t
  | .word text, _ => ⟨.word text, rfl⟩
  | .node .., h => by simp [ofParsers] at h
  | .bare .., h => by simp [ofParsers] at h
  | .earley r _ _ xs, h | .cyk r _ xs, h => by
    rw [ofParsers] at h
    obtain ⟨ts, hts⟩ := exists_subtrees xs h
    exact ⟨.node r.lhs ts, by rw [subtree?, hts]; rfl⟩

theorem exists_subtrees : ∀ xs : List Item, ofParsersAll xs = true → ∃ ts, subtrees? xs = some ts
  | [], _ => ⟨[], rfl⟩
  | x :: xs, h => by
    rw [ofParsersAll, Bool.and_eq_true] at h
    obtain ⟨t, ht⟩ := exists_subtree x h.1
    obtain ⟨ts, hts⟩ := exists_subtrees xs h.2
    exact ⟨t :: ts, by rw [subtrees?, ht, hts]; rfl⟩

end

theorem exists_tree {x : Item} (hk : x.kind?.isSome = true) (h : x.ofParsers = true) : ∃ t, x.tree? = some t := by
  cases x with
  | earley | cyk => exact exists_subtree _ h
  | _ => cases hk

/-- A list of items that all have a tree has a list of trees. -/
theorem exists_trees {xs : List Item} (h : ∀ x ∈ xs, ∃ t, x.tree? = some t) :
    ∃ ts, xs.mapM Item.tree? = some ts ∧ ts.length = xs.length := by
  induction xs with
  | nil => exact ⟨[], rfl, rfl⟩
  | cons x xs ih =>
    obtain ⟨t, ht⟩ := h x (by simp)
    obtain ⟨ts, hts, hlen⟩ := ih fun y hy => h y (List.mem_cons_of_mem x hy)
    exact ⟨t :: ts, by simp [List.mapM_cons, ht, hts], by simp [hlen]⟩

end Item

namespace Chart

variable {c : Chart Item} {k : Kind} {symbol : String}

/-! ## The parses of a kind -/

theorem Mixed.parses_only (h : c.Mixed) (symbol : String) (k : Kind) : (c.only k).parses symbol k = c.parses symbol k := by
  unfold parses
  rw [h.cell_only, List.filter_filter]
  apply List.filter_congr
  intro x _
  unfold Item.isParse Item.isOf
  cases x.kind? == some k <;> simp

/-- The parses of a kind among all complete items over the whole input. -/
theorem Mixed.exists_fullParseItems (h : c.Mixed) (symbol : String) :
    ∃ items, c.fullParseItems symbol = .ok items ∧ (∀ k, items.filter (·.isOf k) = c.parses symbol k) ∧
      items.length = (c.parses symbol .earley).length + (c.parses symbol .cyk).length := by
  refine ⟨_, h.fullParseItems_eq symbol, ?_⟩
  have hkind : ∀ k, (((c.cell 0 c.length).filter fun x => x.isComplete? == some true).filter
      (·.derives symbol)).filter (·.isOf k) = c.parses symbol k := by
    intro k
    unfold parses Item.isParse Item.isOf
    rw [List.filter_filter, List.filter_filter]
  refine ⟨hkind, ?_⟩
  rw [← hkind, ← hkind, List.length_eq_length_filter_add (·.isOf .earley)]
  congr 2
  apply List.filter_congr
  intro x hx
  have hcell := List.mem_of_mem_filter (List.mem_of_mem_filter hx)
  exact (Item.isOf_cyk (h.kinds x (h.filed.mem_of_cell hcell))).symm

end Chart

namespace Operation

/-- The part of a kind is the chart of what was offered of that kind. -/
theorem mixed_inserts {xs : List Item} (hxs : ∀ x ∈ xs, x.kind?.isSome = true) (n : Nat) (source : String) :
    (run n source (xs.map .insert)).chart.Mixed ∧ ∀ k,
      (run n source (xs.map .insert)).chart.only k = (run n source ((xs.filter (·.isOf k)).map .insert)).chart := by
  rw [run_inserts]
  refine ⟨(Chart.mixed_empty n).putAll hxs, fun k => ?_⟩
  rw [run_inserts, ((Chart.mixed_empty n).only_putAll hxs k).1, Chart.only_empty]

/-- Let a chart be offered dotted rules and constituents in any order, with words and items of either kind below them.
Asked for the trees of a kind, it answers what a chart answers that was offered those of that kind alone, in the same
order. These are the trees of the items of that kind among the complete items over the whole input, and there are no
others among these than those of the two kinds. -/
theorem tree_queries_by_kind {xs : List Item} (hxs : ∀ x ∈ xs, x.kind?.isSome = true ∧ x.ofParsers = true) (n : Nat)
    (source : String) (symbol : String) :
    ∃ (items : List Item) (trees : Kind → List Tree),
      (run n source (xs.map .insert)).chart.fullParseItems symbol = .ok items ∧
      (∀ k, (run n source (xs.map .insert)).chart.parseTrees symbol k = .ok (trees k) ∧
        (run n source ((xs.filter (·.isOf k)).map .insert)).chart.parseTrees symbol k = .ok (trees k) ∧
        (items.filter (·.isOf k)).mapM Item.tree? = some (trees k)) ∧
      items.length = (trees .earley).length + (trees .cyk).length := by
  obtain ⟨hmixed, honly⟩ := mixed_inserts (fun x hx => (hxs x hx).1) n source
  obtain ⟨items, hitems, hkind, hlen⟩ := hmixed.exists_fullParseItems symbol
  have htrees : ∀ k, ∃ ts, ((run n source (xs.map .insert)).chart.parses symbol k).mapM Item.tree? = some ts ∧
      ts.length = ((run n source (xs.map .insert)).chart.parses symbol k).length := by
    intro k
    apply Item.exists_trees
    intro x hx
    have hmem := hmixed.filed.mem_of_cell (List.mem_of_mem_filter hx)
    rw [run_inserts] at hmem
    obtain ⟨hk, hx⟩ := hxs x (Chart.mem_of_mem_putAll hmem)
    exact Item.exists_tree hk hx
  choose trees htrees hlength using htrees
  refine ⟨items, trees, hitems, fun k => ⟨Chart.parseTrees_eq_ok (htrees k), ?_, ?_⟩, ?_⟩
  · rw [← honly k]
    apply Chart.parseTrees_eq_ok
    rw [← Chart.parses, hmixed.parses_only]
    exact htrees k
  · rw [hkind k]
    exact htrees k
  · rw [hlen, hlength, hlength]

/-- A dotted rule over a constituent, a constituent over a dotted rule, and a dotted rule that is not complete. -/
def crossed : List Item :=
  [.cyk ⟨"S", ["A"]⟩ (.between 0 1) [.earley ⟨"A", ["a"]⟩ 1 (.between 0 1) [.word "a"]],
    .earley ⟨"S", ["A", "A"]⟩ 1 (.between 0 1) [.word "a"],
    .earley ⟨"S", ["A"]⟩ 1 (.between 0 1) [.cyk ⟨"A", ["a"]⟩ (.between 0 1) [.word "a"]],
    .cyk ⟨"S", ["b"]⟩ (.between 0 1) [.word "b"]]

theorem tree_queries_by_kind_crossed :
    (∀ x ∈ crossed, x.kind?.isSome = true ∧ x.ofParsers = true) ∧
      ∃ (items : List Item) (trees : Kind → List Tree),
        (run 1 Chart.logName (crossed.map .insert)).chart.fullParseItems "S" = .ok items ∧
        (∀ k, (run 1 Chart.logName (crossed.map .insert)).chart.parseTrees "S" k = .ok (trees k) ∧
          (run 1 Chart.logName ((crossed.filter (·.isOf k)).map .insert)).chart.parseTrees "S" k = .ok (trees k) ∧
          (items.filter (·.isOf k)).mapM Item.tree? = some (trees k)) ∧
        items.length = (trees .earley).length + (trees .cyk).length ∧ items.length = 3 := by
  have hparsers : ∀ x ∈ crossed, x.kind?.isSome = true ∧ x.ofParsers = true := by decide
  obtain ⟨items, trees, hitems, htrees, hlen⟩ := tree_queries_by_kind hparsers 1 Chart.logName "S"
  refine ⟨hparsers, items, trees, hitems, htrees, hlen, ?_⟩
  cases hitems
  rfl

end Operation

end ParseChart
