import ParseChart.Proofs.Cyk.CellOrder
import ParseChart.Proofs.Earley.Contents
import ParseChart.Proofs.Earley.Treatments
/-!
# Each derivation is made once

An item has its derivation with it, so whether an insertion finds its item on the chart tells whether a derivation
was made before. In a tabular parse none is, as each split of a span is combined once, and in an Earley parse none
but predicted items, as each item is treated once.
-/

namespace ParseChart

theorem Cyk.exists_insertions (p : Cyk) (w : List String) :
    ∃ s, ∃ made : List (Attempt Item), p.parse w = (.ok (), s) ∧ Tells s.records made ∧ ∀ o ∈ made, o.isNew = true := by
  obtain ⟨c, ⟨made, hfill, hnew⟩, -⟩ := fill_ordered p w
  obtain ⟨s, hs, -, htells⟩ := hfill.onEmpty Chart.logName
  exact ⟨s, made, hs, htells, hnew⟩

/-- An Earley parse that ends has treated each item of its chart once. By its records it has made the insertions of the
start item and of these treatments, and unless a treatment predicts, all its insertions answer true, as does that of
the start item. So do all the insertions of a tabular parse. -/
theorem derivations_inserted_once (g : Grammar) (start : Option String) (w : List String) :
    (∀ p fuel s, Earley.ofGrammar g start = .ok p → p.parse fuel w = (.ok (), s) →
      ∃ ts, p.Treats w (p.seeded w) ts s.chart ∧ (ts.map (·.item)).Nodup ∧ (∀ x, x ∈ ts.map (·.item) ↔ x ∈ s.chart) ∧
        Tells s.records (⟨p.startItem, true⟩ :: ts.flatMap (·.made)) ∧
        ∀ t ∈ ts, p.predicts t.item = false → ∀ o ∈ t.made, o.isNew = true) ∧
      ∀ q, Cyk.ofGrammar g start = .ok q →
        ∃ s, ∃ made : List (Attempt Item), q.parse w = (.ok (), s) ∧ Tells s.records made ∧ ∀ o ∈ made, o.isNew = true := by
  constructor
  · intro p fuel s hp hs
    obtain ⟨hne, -, rfl⟩ := Earley.ofGrammar_eq_ok.1 hp
    exact Earley.exists_treats hne hs
  · exact fun q _ => q.exists_insertions w

/-- For one word, the left-recursive rule predicts both rules again at each position, and these four are refused. -/
theorem derivations_inserted_once_doubling :
    (Earley.ofGrammar .doubling none = .ok ⟨.doubling, "S"⟩ ∧ Cyk.ofGrammar .doubling none = .ok ⟨.doubling, "S"⟩) ∧
      (∃ s, ∃ ts : List Earley.Treatment, Earley.parse ⟨.doubling, "S"⟩ 6 ["a"] = (.ok (), s) ∧
        Tells s.records (⟨Earley.startItem ⟨.doubling, "S"⟩, true⟩ :: ts.flatMap (·.made)) ∧
        (∀ t ∈ ts, Earley.predicts ⟨.doubling, "S"⟩ t.item = false → ∀ o ∈ t.made, o.isNew = true) ∧
        s.records.reverse.filterMap (·.event.answer?) =
          [true, true, true, false, false, true, true, true, true, true, false, false]) ∧
      ∃ s, ∃ made : List (Attempt Item), Cyk.parse ⟨.doubling, "S"⟩ ["a", "a"] = (.ok (), s) ∧
        Tells s.records made ∧ ∀ o ∈ made, o.isNew = true := by
  have hq : Cyk.ofGrammar .doubling none = .ok ⟨.doubling, "S"⟩ :=
    Cyk.ofGrammar_eq_ok.2 ⟨Grammar.isNormalForm_doubling, rfl⟩
  refine ⟨⟨Earley.ofGrammar_doubling, hq⟩, ?_, (derivations_inserted_once .doubling none ["a", "a"]).2 _ hq⟩
  have hrun : (Earley.parse ⟨.doubling, "S"⟩ 6 ["a"]).1.toOption = some () ∧
      (Earley.parse ⟨.doubling, "S"⟩ 6 ["a"]).2.records.reverse.filterMap (·.event.answer?) =
        [true, true, true, false, false, true, true, true, true, true, false, false] := by decide +kernel
  have honce := (derivations_inserted_once .doubling none ["a"]).1 ⟨.doubling, "S"⟩ 6
  generalize Earley.parse ⟨.doubling, "S"⟩ 6 ["a"] = result at hrun honce
  obtain ⟨answer, s⟩ := result
  cases answer with
  | error halt => cases hrun.1
  | ok =>
    obtain ⟨ts, -, -, -, htells, hnew⟩ := honce s Earley.ofGrammar_doubling rfl
    exact ⟨s, ts, rfl, htells, hnew, hrun.2⟩

end ParseChart
