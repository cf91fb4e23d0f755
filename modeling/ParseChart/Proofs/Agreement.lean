import ParseChart.Proofs.Cyk.Parses
import ParseChart.Proofs.Earley.Parses
/-!
# The two parsers agree

Both parsers find the derivation trees, each once, so on a grammar in normal form they find the same: on
the whole input, and on each piece of it what one has in a cell the other answers for the piece alone.
-/

namespace ParseChart

open ChartM

variable {g : Grammar} {start : Option String} {p : Cyk} {w : List String}

/-- A grammar in normal form is accepted by both parsers. -/
theorem exists_earley (hg : g.isNormalForm = true) (htop : ∀ r ∈ g.rules, Earley.topSymbol ∉ r.rhs)
    (start : Option String) :
    ∃ e, Earley.ofGrammar g start = .ok e ∧ e.grammar = g ∧ e.start = start.getD g.start ∧
      (e.start ≠ Earley.topSymbol → e.Proper) := by
  obtain ⟨hne, hcyc⟩ := Grammar.accepted_of_normalForm hg
  exact ⟨_, Earley.ofGrammar_eq_ok.2 ⟨hne, hcyc, rfl⟩, rfl, rfl, fun hstart => ⟨hne, hcyc, htop, hstart⟩⟩

theorem perm_of_exact {trees trees' : List Tree} {wanted : Tree → Prop} (hn : trees.Nodup) (hn' : trees'.Nodup)
    (h : ∀ t, t ∈ trees ↔ wanted t) (h' : ∀ t, t ∈ trees' ↔ wanted t) : trees.Perm trees' :=
  (List.perm_ext_iff_of_nodup hn hn').2 fun t => (h t).trans (h' t).symm

/-- A grammar that the tabular parser accepts is accepted by the Earley parser under every start symbol. In each
cell of the table a symbol has the trees that the Earley parser from that symbol answers for the words there, and
on the whole input both parsers have the same answers. -/
theorem parsers_agree (hp : Cyk.ofGrammar g start = .ok p) (htop : ∀ r ∈ g.rules, Earley.topSymbol ∉ r.rhs) :
    (∀ symbol, ∃ e, Earley.ofGrammar g symbol = .ok e) ∧ ∀ w,
      (∃ s, p.parse w = (.ok (), s) ∧ ∀ i j a, i < j → j ≤ w.length → a ≠ Earley.topSymbol →
        ∃ items trees e trees', s.chart.itemsSpanning (.int i) (.int j) = .ok items ∧
          (items.filter (·.derives a)).mapM Item.tree? = some trees ∧ Earley.ofGrammar g (some a) = .ok e ∧
          Answers (fun fuel => e.parseTrees fuel (slice w i j)) trees' ∧ trees.Perm trees') ∧
      (p.start ≠ Earley.topSymbol → ∃ e trees trees' accepted, Earley.ofGrammar g start = .ok e ∧
        (p.parseTrees w).1 = .ok trees ∧ Answers (fun fuel => e.parseTrees fuel w) trees' ∧ trees.Perm trees' ∧
        (p.recognize w).1 = .ok accepted ∧ Answers (fun fuel => e.recognize fuel w) accepted) := by
  obtain ⟨hg, rfl⟩ := Cyk.ofGrammar_eq_ok.1 hp
  refine ⟨fun symbol => ?_, fun w => ⟨?_, fun hstart => ?_⟩⟩
  · obtain ⟨e, he, -⟩ := exists_earley hg htop symbol
    exact ⟨e, he⟩
  · obtain ⟨s, hs, h⟩ := Cyk.parse_filled ⟨g, start.getD g.start⟩ w
    refine ⟨s, hs, fun i j a hij hj ha => ?_⟩
    obtain ⟨trees, htrees, hn, hmem⟩ := h.trees_of_cell hg (Nat.le_of_lt hij) hj a
    obtain ⟨e, he, rfl, rfl, hproper⟩ := exists_earley hg htop (some a)
    obtain ⟨⟨trees', htrees', hn', hmem'⟩, -⟩ := (hproper ha).answers (slice w i j)
    exact ⟨_, trees, e, trees', Chart.itemsSpanning_int (Nat.le_of_lt hij) (h.length ▸ hj), htrees, he, htrees',
      perm_of_exact hn hn' hmem hmem'⟩
  · obtain ⟨⟨trees, htrees, hn, hmem⟩, accepted, hacc, haccepted⟩ := Cyk.answers (p := ⟨g, start.getD g.start⟩) hg w
    obtain ⟨e, he, rfl, hes, hproper⟩ := exists_earley hg htop start
    obtain ⟨⟨trees', htrees', hn', hmem'⟩, accepted', hacc', haccepted'⟩ := (hproper (hes ▸ hstart)).answers w
    rw [hes] at hmem' haccepted'
    have hsame : accepted = accepted' := Bool.eq_iff_iff.2 (haccepted.trans haccepted'.symm)
    exact ⟨e, trees, trees', accepted, he, htrees, htrees', perm_of_exact hn hn' hmem hmem', hacc, hsame ▸ hacc'⟩

theorem parsers_agree_doubling :
    (Cyk.ofGrammar .doubling none = .ok ⟨.doubling, "S"⟩ ∧ ∀ r ∈ Grammar.doubling.rules, Earley.topSymbol ∉ r.rhs) ∧
      ∃ s, Cyk.parse ⟨.doubling, "S"⟩ ["a", "a", "a"] = (.ok (), s) ∧
        ∃ items trees e trees', s.chart.itemsSpanning (.int 1) (.int 3) = .ok items ∧
          (items.filter (·.derives "S")).mapM Item.tree? = some trees ∧ Earley.ofGrammar .doubling (some "S") = .ok e ∧
          Answers (fun fuel => e.parseTrees fuel ["a", "a"]) trees' ∧ trees.Perm trees' := by
  have hp : Cyk.ofGrammar .doubling none = .ok ⟨.doubling, "S"⟩ :=
    Cyk.ofGrammar_eq_ok.2 ⟨Grammar.isNormalForm_doubling, rfl⟩
  have htop : ∀ r ∈ Grammar.doubling.rules, Earley.topSymbol ∉ r.rhs := by decide
  obtain ⟨s, hs, hcells⟩ := ((parsers_agree hp htop).2 ["a", "a", "a"]).1
  exact ⟨⟨hp, htop⟩, s, hs, hcells 1 3 "S" (by decide) (by decide) (by decide)⟩

end ParseChart
