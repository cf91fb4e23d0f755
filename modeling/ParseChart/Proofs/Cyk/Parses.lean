import ParseChart.Proofs.Cyk.Table
/-!
# What a tabular parser finds

In the chart of a parse each cell has the items of the derivation trees of the words between its
positions, for every symbol. So the parser answers the derivation trees of the whole input.
-/

namespace ParseChart.Cyk

open ChartM

variable {g : Grammar} {start : Option String} {p : Cyk} {w : List String} {c : Chart Item} {i j : Nat} {a : String}
  {x : Item}

theorem ofGrammar_eq_ok : ofGrammar g start = .ok p ↔ g.isNormalForm = true ∧ p = ⟨g, start.getD g.start⟩ := by
  unfold ofGrammar
  cases g.isNormalForm <;> simp [eq_comm]

theorem Filled.plain (h : Filled g w c) : c.Plain := fun x hx => by
  obtain ⟨a, i, j, t, -, rfl⟩ := (h.mem_iff x).1 hx
  exact Tree.plain_item .cyk i t

theorem Filled.kind (h : Filled g w c) (hx : x ∈ c) : x.kind? = some .cyk ∧ x.isComplete? = some true := by
  obtain ⟨a, i, j, t, ht, rfl⟩ := (h.mem_iff x).1 hx
  obtain ⟨ts, rfl⟩ := ht.parses.root
  exact ⟨rfl, rfl⟩

theorem Filled.parses_eq (h : Filled g w c) (a : String) :
    c.parses a .cyk = (c.cell 0 w.length).filter (·.derives a) := by
  rw [Chart.parses, h.length]
  apply List.filter_congr
  intro x hx
  obtain ⟨hkind, hcomplete⟩ := h.kind (h.filed.mem_of_cell hx)
  simp [Item.isParse, Item.isOf, hkind, hcomplete]

theorem derives_item {b : String} {t : Tree} (ht : Derived g w b i j t) (k : Nat) :
    (t.item .cyk k).derives a = true ↔ b = a := by
  obtain ⟨r, hr, rfl⟩ := rule?_item ht k
  unfold Item.derives
  rw [hr, Option.any_some, beq_iff_eq]

/-- The items of a symbol in a cell are those of its derivation trees. -/
theorem Filled.mem_cell (h : Filled g w c) (hg : g.isNormalForm = true) (hij : i ≤ j) (hj : j ≤ w.length) :
    x ∈ (c.cell i j).filter (·.derives a) ↔ ∃ t, g.Parses a (slice w i j) t ∧ x = t.item .cyk i := by
  rw [List.mem_filter]
  constructor
  · rintro ⟨hx, ha⟩
    obtain ⟨b, k, l, t, ht, rfl⟩ := (h.mem_iff x).1 (h.filed.mem_of_cell hx)
    obtain ⟨-, rfl, rfl⟩ := ((ht.item_over .cyk).mem_cell h.filed i j).1 hx
    obtain rfl := (derives_item ht k).1 ha
    exact ⟨t, ht.parses, rfl⟩
  · rintro ⟨t, ht, rfl⟩
    have ht := (derived_iff_parses hg hij hj).2 ht
    have hc : t.item .cyk i ∈ c := (h.mem_iff _).2 ⟨a, i, j, t, ht, rfl⟩
    exact ⟨((ht.item_over .cyk).mem_cell h.filed i j).2 ⟨hc, rfl, rfl⟩, (derives_item ht i).2 rfl⟩

theorem Filled.trees_of_cell (h : Filled g w c) (hg : g.isNormalForm = true) (hij : i ≤ j) (hj : j ≤ w.length)
    (a : String) :
    ∃ trees, ((c.cell i j).filter (·.derives a)).mapM Item.tree? = some trees ∧ trees.Nodup ∧
      ∀ t, t ∈ trees ↔ g.Parses a (slice w i j) t :=
  Grammar.trees_of_items (h.filed.nodup_cell.filter _) fun _ => h.mem_cell hg hij hj

theorem parse_filled (p : Cyk) (w : List String) : ∃ s, p.parse w = (.ok (), s) ∧ Filled p.grammar w s.chart := by
  obtain ⟨c, hc, h⟩ := fill_yields p w
  obtain ⟨s, hs, rfl⟩ := hc.onEmpty Chart.logName
  exact ⟨s, hs, h⟩

/-- What the chart of a parse answers. -/
theorem Filled.answers (h : Filled g w c) (hg : g.isNormalForm = true) (symbol : String) :
    (∃ trees, c.parseTrees symbol .cyk = .ok trees ∧ trees.Nodup ∧ ∀ t, t ∈ trees ↔ g.Parses symbol w t) ∧
      ∃ items, c.fullParseItems symbol = .ok items ∧ ((!items.isEmpty) = true ↔ ∃ t, g.Parses symbol w t) := by
  apply h.filed.answers_of_parses h.plain fun x hx => (h.kind hx).1
  intro x
  have hcell := h.mem_cell (x := x) (a := symbol) hg (Nat.zero_le _) (Nat.le_refl _)
  rwa [slice_all, ← h.parses_eq] at hcell

/-- The trees of the whole input and whether it is accepted. -/
theorem answers (hg : p.grammar.isNormalForm = true) (w : List String) :
    (∃ trees, (p.parseTrees w).1 = .ok trees ∧ trees.Nodup ∧ ∀ t, t ∈ trees ↔ p.grammar.Parses p.start w t) ∧
      ∃ accepted, (p.recognize w).1 = .ok accepted ∧ (accepted = true ↔ ∃ t, p.grammar.Parses p.start w t) := by
  obtain ⟨c, hc, h⟩ := fill_yields p w
  obtain ⟨⟨trees, htrees, hn, hmem⟩, items, hitems, hacc⟩ := h.answers hg p.start
  constructor
  · exact ⟨trees, (hc.bind (yields_parseTrees htrees)).answers _, hn, hmem⟩
  · exact ⟨_, (hc.bind (yields_accepted hitems)).answers _, hacc⟩

/-- A parse with a grammar in normal form ends without a fault. For every symbol, the items of a cell have as trees
the derivation trees of the words there, each once; the parser answers those of the whole input from the start
symbol, and accepts it iff there is one. -/
theorem cells_hold_derivations (hg : g.isNormalForm = true) (start : Option String) (w : List String) :
    ∃ p, ofGrammar g start = .ok p ∧ p.start = start.getD g.start ∧
      (∃ s, p.parse w = (.ok (), s) ∧ ∀ i j, i ≤ j → j ≤ w.length →
        ∃ items, s.chart.itemsSpanning (.int i) (.int j) = .ok items ∧ ∀ a,
          ∃ trees, (items.filter (·.derives a)).mapM Item.tree? = some trees ∧ trees.Nodup ∧
            (∀ t, t ∈ trees ↔ g.Parses a (slice w i j) t) ∧ (i = j → trees = [])) ∧
      (∃ trees, (p.parseTrees w).1 = .ok trees ∧ trees.Nodup ∧ ∀ t, t ∈ trees ↔ g.Parses p.start w t) ∧
      ∃ accepted, (p.recognize w).1 = .ok accepted ∧ (accepted = true ↔ ∃ t, g.Parses p.start w t) := by
  refine ⟨⟨g, start.getD g.start⟩, ofGrammar_eq_ok.2 ⟨hg, rfl⟩, rfl, ?_, answers hg w⟩
  obtain ⟨s, hs, h⟩ := parse_filled ⟨g, start.getD g.start⟩ w
  refine ⟨s, hs, fun i j hij hj => ⟨_, Chart.itemsSpanning_int hij (h.length ▸ hj), fun a => ?_⟩⟩
  obtain ⟨trees, htrees, hn, hmem⟩ := h.trees_of_cell hg hij hj a
  refine ⟨trees, htrees, hn, hmem, fun he => List.eq_nil_iff_forall_not_mem.2 fun t ht => ?_⟩
  have := ((derived_iff_parses hg hij hj).2 ((hmem t).1 ht)).bounds
  omega

theorem cells_hold_derivations_doubling :
    Grammar.doubling.isNormalForm = true ∧
      ∃ p, ofGrammar .doubling none = .ok p ∧ ∃ s, p.parse ["a", "a", "a"] = (.ok (), s) ∧
        ∃ items trees, s.chart.itemsSpanning (.int 0) (.int 2) = .ok items ∧
          (items.filter (·.derives "S")).mapM Item.tree? = some trees ∧ trees.Nodup ∧
            ∀ t, t ∈ trees ↔ Grammar.doubling.Parses "S" ["a", "a"] t := by
  obtain ⟨p, hp, -, ⟨s, hs, hcells⟩, -⟩ := cells_hold_derivations Grammar.isNormalForm_doubling none ["a", "a", "a"]
  obtain ⟨items, hitems, htrees⟩ := hcells 0 2 (by decide) (by decide)
  obtain ⟨trees, htree, hn, hmem, -⟩ := htrees "S"
  exact ⟨Grammar.isNormalForm_doubling, p, hp, s, hs, items, trees, hitems, htree, hn, hmem⟩

end ParseChart.Cyk
