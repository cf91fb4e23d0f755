import ParseChart.Proofs.Earley.Finite
/-!
# The finished chart of an Earley parse

The parser of a grammar that it accepts always ends, and which items its chart then holds is said without
the algorithm: an item is there if its children derive the symbols before its dot and its rule is
predictable where it starts. Being expected there is not enough: no derivation leads past a word that has
rules of its own, as such a word is never scanned.
-/

namespace ParseChart

/-- Rows for `0..n`, and in each the wanted items that start, or stop, at its position, each once. -/
structure Chart.Holds (c : Chart Item) (n : Nat) (wanted : Item → Prop) : Prop where
  outgoing_length : c.outgoing.length = n + 1
  incoming_length : c.incoming.length = n + 1
  leaving : ∀ k, (c.rowFrom k).elems.Nodup ∧
    ∀ x, x ∈ (c.rowFrom k).elems ↔ wanted x ∧ x.start? = some (.int k)
  reaching : ∀ k, (c.rowTo k).elems.Nodup ∧
    ∀ x, x ∈ (c.rowTo k).elems ↔ wanted x ∧ x.stop? = some (.int k)

namespace Earley

open ChartM

variable {g : Grammar} {start : Option String} {p : Earley} {w : List String}

/-- A parser that was not refused, with the symbol above the start symbol kept out of rules and start. -/
structure Proper (p : Earley) : Prop where
  noEmptyRule : p.grammar.hasEmptyRule = false
  noUnitCycle : p.grammar.hasUnitCycle = false
  topFree : ∀ r ∈ p.grammar.rules, topSymbol ∉ r.rhs
  start_ne : p.start ≠ topSymbol

theorem ofGrammar_eq_ok : ofGrammar g start = .ok p ↔
    g.hasEmptyRule = false ∧ g.hasUnitCycle = false ∧ p = ⟨g, start.getD g.start⟩ := by
  unfold ofGrammar
  cases g.hasEmptyRule <;> cases g.hasUnitCycle <;> simp [eq_comm]

theorem ofGrammar_doubling : ofGrammar .doubling none = .ok ⟨.doubling, "S"⟩ :=
  ofGrammar_eq_ok.2 ⟨by decide, Grammar.hasUnitCycle_eq_false (by decide), rfl⟩

theorem proper_of_ofGrammar (hp : ofGrammar g start = .ok p) (htop : ∀ r ∈ g.rules, topSymbol ∉ r.rhs)
    (hstart : p.start ≠ topSymbol) : p.Proper ∧ p.grammar = g := by
  obtain ⟨hne, hcyc, rfl⟩ := ofGrammar_eq_ok.1 hp
  exact ⟨⟨hne, hcyc, htop, hstart⟩, rfl⟩

theorem Proper.exists_completes (h : p.Proper) (w : List String) : ∃ n c, Completes p w n c :=
  Earley.exists_completes h.noEmptyRule fun k => exists_bounds h.noEmptyRule h.noUnitCycle h.topFree h.start_ne w k

theorem exists_parse_doubling (w : List String) : ∃ fuel s, parse ⟨.doubling, "S"⟩ fuel w = (.ok (), s) := by
  obtain ⟨h, -⟩ := proper_of_ofGrammar ofGrammar_doubling (by decide) (by decide)
  obtain ⟨n, c, hc⟩ := h.exists_completes w
  obtain ⟨s, hs, -⟩ := hc.parse (Nat.le_refl n)
  exact ⟨n, s, hs⟩

/-- A parse ends with a chart of the charted items. -/
theorem Proper.fill (h : p.Proper) (w : List String) :
    ∃ c, Ends (fun fuel => p.fill fuel w) (.empty w.length) () c ∧ c.Filed ∧ c.length = w.length ∧
      ∀ x, x ∈ c ↔ Charted p w (Predictable p w) x := by
  obtain ⟨n, c, hc⟩ := h.exists_completes w
  have hend := hc.progress h.noEmptyRule
  refine ⟨c, ⟨n, fun fuel hf => hc.fill hf⟩, hend.filed, hend.length, fun x => ?_⟩
  exact (hc.mem_iff h.noEmptyRule x).trans (reached_iff_charted h.topFree h.start_ne)

/-- With enough fuel a parse ends with the chart. -/
def Finishes (p : Earley) (w : List String) (c : Chart Item) : Prop :=
  ∃ enough, ∀ fuel, enough ≤ fuel → ∃ s, p.parse fuel w = (.ok (), s) ∧ s.chart = c

theorem finishes_of_ends {c : Chart Item} (h : Ends (fun fuel => p.fill fuel w) (.empty w.length) () c) :
    p.Finishes w c := by
  obtain ⟨enough, h⟩ := h
  exact ⟨enough, fun fuel hf => (h fuel hf).onEmpty Chart.logName⟩

theorem Finishes.unique {c c' : Chart Item} (h : p.Finishes w c) (h' : p.Finishes w c') : c = c' := by
  obtain ⟨n, hn⟩ := h
  obtain ⟨m, hm⟩ := h'
  obtain ⟨s, hs, rfl⟩ := hn (max n m) (by omega)
  obtain ⟨s', hs', rfl⟩ := hm (max n m) (by omega)
  rw [hs] at hs'
  cases hs'
  rfl

theorem charted_mem_rows {c : Chart Item} (hf : c.Filed) {predicted : Nat → String → Prop}
    (hm : ∀ x, x ∈ c ↔ Charted p w predicted x) (k : Nat) (x : Item) :
    (x ∈ (c.rowFrom k).elems ↔ Charted p w predicted x ∧ x.start? = some (.int k)) ∧
      (x ∈ (c.rowTo k).elems ↔ Charted p w predicted x ∧ x.stop? = some (.int k)) := by
  have hrows : ∀ r d i j cs, x = dotted r d i j cs →
      (x ∈ (c.rowFrom k).elems ↔ x ∈ c ∧ x.start? = some (.int k)) ∧
        (x ∈ (c.rowTo k).elems ↔ x ∈ c ∧ x.stop? = some (.int k)) := by
    rintro r d i j cs rfl
    rw [over_dotted.mem_rowFrom hf, over_dotted.mem_rowTo hf]
    exact ⟨and_congr_right' (over_dotted.start_iff k).symm, and_congr_right' (over_dotted.stop_iff k).symm⟩
  by_cases hx : Charted p w predicted x
  · obtain ⟨r, d, i, j, cs, he, -⟩ := hx
    rw [← hm]
    exact hrows r d i j cs he
  · have hout : x ∉ c := fun h => hx ((hm x).1 h)
    have hfrom : x ∉ (c.rowFrom k).elems := fun h => hout (hf.mem_of_rowFrom h)
    have hto : x ∉ (c.rowTo k).elems := fun h => hout ⟨k, h⟩
    simp [hx, hfrom, hto]

/-- The finished chart holds the items whose children derive the symbols before the dot and whose rule is
predictable where they start, in both indices, each once. -/
theorem finished_chart_holds (hp : ofGrammar g start = .ok p) (htop : ∀ r ∈ g.rules, topSymbol ∉ r.rhs)
    (hstart : p.start ≠ topSymbol) (w : List String) :
    ∃ c, p.Finishes w c ∧ c.Holds w.length (Charted p w (Predictable p w)) := by
  obtain ⟨h, -⟩ := proper_of_ofGrammar hp htop hstart
  obtain ⟨c, hends, hf, hl, hm⟩ := h.fill w
  refine ⟨c, finishes_of_ends hends, ?_, ?_, fun k => ?_, fun k => ?_⟩
  · rw [hf.outgoing_length, hl]
  · rw [hf.incoming_length, hl]
  · exact ⟨hf.nodup_from k, fun x => (charted_mem_rows hf hm k x).1⟩
  · exact ⟨hf.nodup_to k, fun x => (charted_mem_rows hf hm k x).2⟩

/-! ## Words that have rules -/

/-- The grammar of two words in turn, each by a rule of its own. -/
def twoWords : Grammar where
  groups := groupRules [⟨"S", ["A", "B"]⟩, ⟨"A", ["a"]⟩, ⟨"B", ["b"]⟩]
  start := "S"
  grouped := ⟨_, rfl⟩
  start_mem := by decide

theorem ofGrammar_twoWords : ofGrammar twoWords none = .ok ⟨twoWords, "S"⟩ :=
  ofGrammar_eq_ok.2 ⟨by decide, Grammar.hasUnitCycle_eq_false (by decide), rfl⟩

theorem twoWords_topFree : ∀ r ∈ twoWords.rules, topSymbol ∉ r.rhs := by decide

theorem finished_chart_holds_twoWords :
    (ofGrammar twoWords none = .ok ⟨twoWords, "S"⟩ ∧ (∀ r ∈ twoWords.rules, topSymbol ∉ r.rhs) ∧ "S" ≠ topSymbol) ∧
      ∃ c, Finishes ⟨twoWords, "S"⟩ ["a", "b"] c ∧
        c.Holds 2 (Charted ⟨twoWords, "S"⟩ ["a", "b"] (Predictable ⟨twoWords, "S"⟩ ["a", "b"])) :=
  ⟨⟨ofGrammar_twoWords, twoWords_topFree, by decide⟩,
    finished_chart_holds ofGrammar_twoWords twoWords_topFree (by decide) ["a", "b"]⟩

/-- The start symbol derives `A B`, but after a word `A`, which is not scanned, no rule of `B` is charted. -/
theorem not_holds_expected :
    (ofGrammar twoWords none = .ok ⟨twoWords, "S"⟩ ∧ (∀ r ∈ twoWords.rules, topSymbol ∉ r.rhs) ∧ "S" ≠ topSymbol) ∧
      ¬ ∃ c, Finishes ⟨twoWords, "S"⟩ ["A"] c ∧
        c.Holds 1 (Charted ⟨twoWords, "S"⟩ ["A"] (Expected ⟨twoWords, "S"⟩ ["A"])) := by
  refine ⟨⟨ofGrammar_twoWords, twoWords_topFree, by decide⟩, ?_⟩
  rintro ⟨c, hc, hholds⟩
  obtain ⟨h, -⟩ := proper_of_ofGrammar ofGrammar_twoWords twoWords_topFree (by decide)
  obtain ⟨c', hends, hf, -, hm⟩ := h.fill ["A"]
  obtain rfl := hc.unique (finishes_of_ends hends)
  -- By the expected symbols the rule of `B` is charted at 1.
  have hexp : Charted ⟨twoWords, "S"⟩ ["A"] (Expected ⟨twoWords, "S"⟩ ["A"]) (dotted ⟨"B", ["b"]⟩ 0 1 1 []) := by
    have hs : ⟨"S", ["A", "B"]⟩ ∈ twoWords.rules := by decide
    exact ⟨_, 0, 1, 1, [], rfl, by simp, Nat.le_refl _, Nat.le_refl _, .inr ⟨by decide, [], Grammar.derives_rule hs⟩,
      .nil (Nat.le_refl _)⟩
  have hmem := ((hholds.leaving 1).2 _).2 ⟨hexp, rfl⟩
  -- So the chart has it, and `A` would be a terminal.
  obtain ⟨r, d, i, j, cs, he, -, -, -, hpred, -⟩ := (hm _).1 (hf.mem_of_rowFrom hmem)
  obtain ⟨rfl, -, rfl, -⟩ := dotted_inj he
  rcases hpred with ⟨-, h0⟩ | ⟨-, ht, -⟩
  · cases h0
  · exact absurd (ht "A" (by simp)) (by decide)

end Earley

end ParseChart
