import ParseChart.Proofs.Earley.Parses
/-!
# The answers of a parse that ends

On the chart of a parse that ended, the complete items over the whole input for the start symbol are those of the
derivation trees, unless the symbol above the start stands in a right side: then its rule is taken for one of the
grammar. As a left side or as the start symbol it does no harm, if the parse ends at all.
-/

namespace ParseChart.Earley

open ChartM

variable {g : Grammar} {start : Option String} {p : Earley} {w : List String} {c : Chart Item} {n fuel : Nat}

/-! ## The symbol above the start as the start symbol -/

theorem sizeOf_topItem_lt (y : Item) (k : Nat) : sizeOf y < sizeOf (dotted p.topRule 1 0 k [y]) := by
  simp only [dotted, Item.earley.sizeOf_spec, List.cons.sizeOf_spec]
  omega

/-- A complete item of the top symbol is a constituent of another one, and so on. -/
theorem nested_of_complete (hstart : p.start = topSymbol) {k : Nat} {r : Rule} {cs : List Item} (hr : r.lhs = topSymbol)
    (h : Reached p w r r.rhs.length 0 k cs) (m : Nat) :
    ∃ r cs, r.lhs = topSymbol ∧ Reached p w r r.rhs.length 0 k cs ∧ m ≤ sizeOf (dotted r r.rhs.length 0 k cs) := by
  induction m with
  | zero => exact ⟨r, cs, hr, h, Nat.zero_le _⟩
  | succ m ih =>
    obtain ⟨r, cs, hr, h, hm⟩ := ih
    have htop : p.topRule.rhs[0]? = some r.lhs := by rw [hr, topRule, hstart]; rfl
    refine ⟨p.topRule, _, rfl, Reached.start.complete h htop, ?_⟩
    exact Nat.lt_of_le_of_lt hm (sizeOf_topItem_lt _ k)

/-- A parse that ends has no such item, as its chart is finite. -/
theorem Completes.not_complete_top (hne : p.grammar.hasEmptyRule = false) (hc : Completes p w n c)
    (hstart : p.start = topSymbol) {k : Nat} {r : Rule} {cs : List Item} (hr : r.lhs = topSymbol) :
    ¬ Reached p w r r.rhs.length 0 k cs := by
  intro h
  obtain ⟨r, cs, -, h, hsize⟩ := nested_of_complete hstart hr h (sizeOf (c.rowTo k).elems)
  have hmem := (hc.mem_iff hne _).2 ⟨_, _, _, _, _, rfl, h⟩
  have hrow := (over_dotted.mem_rowTo (hc.progress hne).filed k).2 ⟨hmem, rfl⟩
  have := List.sizeOf_lt_of_mem hrow
  omega

theorem Completes.mem_parses_top (hne : p.grammar.hasEmptyRule = false) (hc : Completes p w n c)
    (hstart : p.start = topSymbol) (x : Item) :
    x ∈ c.parses p.start .earley ↔ ∃ t, p.grammar.Parses p.start w t ∧ x = t.item .earley 0 := by
  have hprogress := hc.progress hne
  -- There is neither a parse nor a tree.
  constructor
  · intro hx
    unfold Chart.parses at hx
    rw [hprogress.length, List.mem_filter] at hx
    obtain ⟨r, d, i, j, cs, rfl, hr⟩ := hprogress.reached x (hprogress.filed.mem_of_cell hx.1)
    obtain ⟨-, rfl, rfl⟩ := (over_dotted.mem_cell hprogress.filed 0 _).1 hx.1
    obtain ⟨hlhs, hcomplete⟩ := isParse_dotted.1 hx.2
    obtain rfl : d = r.rhs.length := Nat.le_antisymm hr.dot_le hcomplete
    exact absurd hr (hc.not_complete_top hne hstart (hlhs.trans hstart))
  · rintro ⟨t, ht, rfl⟩
    obtain ⟨ts, rfl⟩ := ht.root
    obtain ⟨-, hr, hobeys, hleaves⟩ := Grammar.parses_node.1 ht
    have hsp := spells_of_trees ts hobeys (hleaves.trans (slice_all w).symm) (Nat.zero_le _) (Nat.le_refl _)
    have hpredicted : Reached p w ⟨p.start, ts.map Tree.root⟩ 0 0 0 [] := Reached.start.predict hr rfl
    exact absurd (hsp.reached (List.append_nil _).symm hpredicted) (hc.not_complete_top hne hstart hstart)

/-! ## Parses that end -/

/-- What the finished chart answers, with the top symbol in no right side. -/
theorem Completes.answers (hp : ofGrammar g start = .ok p) (htop : ∀ r ∈ g.rules, topSymbol ∉ r.rhs)
    (hc : Completes p w n c) :
    (∃ trees, c.parseTrees p.start .earley = .ok trees ∧ trees.Nodup ∧ ∀ t, t ∈ trees ↔ g.Parses p.start w t) ∧
      ∃ items, c.fullParseItems p.start = .ok items ∧ ((!items.isEmpty) = true ↔ ∃ t, g.Parses p.start w t) := by
  obtain ⟨hne, hcyc, rfl⟩ := ofGrammar_eq_ok.1 hp
  have hprogress := hc.progress hne
  have hkind : ∀ x ∈ c, x.kind? = some .earley := fun x hx => by
    obtain ⟨r, d, i, j, cs, rfl, -⟩ := hprogress.reached x hx
    rfl
  apply hprogress.filed.answers_of_parses hprogress.all_dotted.plain hkind
  by_cases hstart : start.getD g.start = topSymbol
  · exact hc.mem_parses_top hne hstart
  · have hproper : Proper ⟨g, start.getD g.start⟩ := ⟨hne, hcyc, htop, hstart⟩
    exact hproper.mem_parses hprogress.filed hprogress.length fun x =>
      (hc.mem_iff hne x).trans (reached_iff_charted htop hstart)

/-- A parse that ends, with the top symbol in no right side, answers the derivation trees. -/
theorem answers_of_parse (hp : ofGrammar g start = .ok p) (htop : ∀ r ∈ g.rules, topSymbol ∉ r.rhs) {s : Logged Item}
    (hparse : p.parse fuel w = (.ok (), s)) :
    (∃ trees, (p.parseTrees fuel w).1 = .ok trees ∧ trees.Nodup ∧ ∀ t, t ∈ trees ↔ g.Parses p.start w t) ∧
      ∃ accepted, (p.recognize fuel w).1 = .ok accepted ∧ (accepted = true ↔ ∃ t, g.Parses p.start w t) := by
  obtain ⟨hne, -, rfl⟩ := ofGrammar_eq_ok.1 hp
  obtain ⟨n, hn, hc⟩ := completes_of_parse hne hparse
  obtain ⟨⟨trees, htrees, hnodup, hmem⟩, items, hitems, haccepted⟩ := hc.answers hp htop
  have hfill := hc.fill hn
  constructor
  · exact ⟨trees, (hfill.bind (yields_parseTrees htrees)).answers _, hnodup, hmem⟩
  · exact ⟨_, (hfill.bind (yields_accepted hitems)).answers _, haccepted⟩

end ParseChart.Earley
