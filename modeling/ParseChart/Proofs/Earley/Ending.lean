import ParseChart.Proofs.Chart.Growth
import ParseChart.Proofs.Earley.Contents
/-!
# The end of a parse

The parse of a parser that was not refused comes to its end without a fault, whatever the words are. It
then leaves a chart from which nothing more follows, so closing its positions again changes nothing.
-/

namespace ParseChart

namespace Earley

open ChartM

variable {g : Grammar} {start : Option String} {p : Earley} {w : List String} {k n fuel fuel' : Nat} {c : Chart Item}

/-- Every queue becomes empty, after as many steps as the finished chart has items at the position. On that much
fuel the parse leaves this chart, and on less it is cut short, so on no fuel does it meet a fault. -/
theorem parse_ends (hp : ofGrammar g start = .ok p) (htop : ∀ r ∈ g.rules, topSymbol ∉ r.rhs)
    (hstart : p.start ≠ topSymbol) (w : List String) :
    ∃ n c, Completes p w n c ∧ (∀ fuel, n ≤ fuel ↔ ∀ k ≤ w.length, (c.rowTo k).elems.length ≤ fuel) ∧
      (∀ fuel, n ≤ fuel → ∃ s, p.parse fuel w = (.ok (), s) ∧ s.chart = c) ∧
      ∀ fuel, fuel < n → (p.parse fuel w).1 = .error .unfinished := by
  obtain ⟨h, -⟩ := proper_of_ofGrammar hp htop hstart
  obtain ⟨n, c, hc⟩ := h.exists_completes w
  exact ⟨n, c, hc, hc.steps h.noEmptyRule, fun _ => hc.parse, fun _ => hc.unfinished⟩

theorem parse_ends_doubling :
    (ofGrammar .doubling none = .ok ⟨.doubling, "S"⟩ ∧ (∀ r ∈ Grammar.doubling.rules, topSymbol ∉ r.rhs) ∧
        "S" ≠ topSymbol) ∧
      ∃ n c, Completes ⟨.doubling, "S"⟩ ["a", "a", "a"] n c ∧
        (∀ fuel, n ≤ fuel ↔ ∀ k ≤ 3, (c.rowTo k).elems.length ≤ fuel) ∧
        (∀ fuel, n ≤ fuel → ∃ s, parse ⟨.doubling, "S"⟩ fuel ["a", "a", "a"] = (.ok (), s) ∧ s.chart = c) ∧
        ∀ fuel, fuel < n → (parse ⟨.doubling, "S"⟩ fuel ["a", "a", "a"]).1 = .error .unfinished :=
  ⟨⟨ofGrammar_doubling, by decide, by decide⟩,
    parse_ends ofGrammar_doubling (by decide) (by decide) ["a", "a", "a"]⟩

/-! ## Closing again -/

/-- Nothing is new of what follows from an item of a finished chart. -/
theorem Completes.treat_again (hne : p.grammar.hasEmptyRule = false) (hc : Completes p w n c) {x : Item}
    (hx : x ∈ (c.rowTo k).elems) : Yields (p.treat w k x) c [] c := by
  have h := hc.progress hne
  obtain ⟨r, d, i, j, cs, rfl, -⟩ := h.reached x ⟨k, hx⟩
  obtain ⟨hxc, rfl⟩ := (over_dotted.mem_rowTo h.filed k).1 hx
  have htreat := h.treat hxc
  have hnone : c.newOf (p.offers w c r d i j cs) = [] :=
    h.filed.newOf_eq_nil fun y hy => h.settled_of_mem hxc y ((mem_offers h.filed h.all_dotted.formed).1 hy)
  rwa [Chart.putAll_of_newOf_nil hnone, hnone] at htreat

theorem Completes.closes_again (hne : p.grammar.hasEmptyRule = false) (hc : Completes p w n c) {ks : List Nat}
    (hks : ∀ k ∈ ks, k ≤ w.length) : ∃ m, m ≤ n ∧ Closes p w ks c m c := by
  induction ks with
  | nil => exact ⟨0, Nat.zero_le n, .nil c⟩
  | cons k ks ih =>
    have hk := hks k (by simp)
    obtain ⟨m, hm, hrest⟩ := ih fun l hl => hks l (List.mem_cons_of_mem k hl)
    have hrow := (hc.steps hne n).1 (Nat.le_refl n) k hk
    exact ⟨_, Nat.max_le.2 ⟨hrow, hm⟩,
      .cons ((hc.progress hne).length ▸ hk) (drains_of_settled fun _ hx => hc.treat_again hne hx) hrest⟩

/-- Closing positions of a finished chart again, in any order and any number of times, leaves it as it is. -/
theorem closing_again (hp : ofGrammar g start = .ok p) {s : Logged Item} (hparse : p.parse fuel w = (.ok (), s))
    {ks : List Nat} (hks : ∀ k ∈ ks, k ≤ w.length) (hfuel : fuel ≤ fuel') :
    Yields (ks.forM fun k => p.closure fuel' w k) s.chart () s.chart := by
  obtain ⟨hne, -, rfl⟩ := ofGrammar_eq_ok.1 hp
  obtain ⟨n, hn, hc⟩ := completes_of_parse hne hparse
  obtain ⟨m, hm, hagain⟩ := hc.closes_again hne hks
  exact hagain.yields (by omega)

theorem closing_again_doubling :
    (ofGrammar .doubling none = .ok ⟨.doubling, "S"⟩ ∧ ∀ k ∈ [3, 0, 2, 0], k ≤ ["a", "a", "a"].length) ∧
      ∃ fuel s, parse ⟨.doubling, "S"⟩ fuel ["a", "a", "a"] = (.ok (), s) ∧
        Yields ([3, 0, 2, 0].forM fun k : Nat => closure ⟨.doubling, "S"⟩ fuel ["a", "a", "a"] k) s.chart () s.chart := by
  refine ⟨⟨ofGrammar_doubling, by decide⟩, ?_⟩
  obtain ⟨fuel, s, hs⟩ := exists_parse_doubling ["a", "a", "a"]
  exact ⟨fuel, s, hs, closing_again ofGrammar_doubling hs (by decide) (Nat.le_refl fuel)⟩

end Earley

end ParseChart
