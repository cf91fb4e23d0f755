import Mathlib.Data.Set.Finite.Lattice
import Mathlib.Data.Finite.Prod
import ParseChart.Proofs.Earley.Course
import ParseChart.Proofs.Earley.Prediction
import ParseChart.Proofs.Grammar.UnitCycle
/-!
# Finitely many derivations

Without empty rules and unit cycles only finitely many children spell out a string over a span. The
induction is on the width of the span, and for one symbol over the same span on the unit rules, as two
symbols or more have narrower spans each. So the items that a parse reaches at a position are finitely
many.
-/

namespace ParseChart.Earley

variable {g : Grammar} {w : List String} {α : List String} {i j n : Nat}

theorem finite_spells_nil (g : Grammar) (w : List String) (i j : Nat) : {cs | Spells g w [] i j cs}.Finite :=
  (Set.finite_singleton []).subset fun _ h => (spells_nil h).2

/-- One symbol has the children of its rules, or is a word. -/
theorem finite_spells_singleton {a : String} (h : ∀ s ∈ g.rules, s.lhs = a → {ds | Spells g w s.rhs i j ds}.Finite) :
    {cs | Spells g w [a] i j cs}.Finite := by
  have hfin : (⋃ s ∈ {s | s ∈ g.rules ∧ s.lhs = a},
      (fun ds => [dotted s s.rhs.length i j ds]) '' {ds | Spells g w s.rhs i j ds}).Finite := by
    refine Set.Finite.biUnion ?_ fun s hs => (h s hs.1 hs.2).image _
    exact (List.finite_toSet g.rules).subset fun s hs => hs.1
  apply ((Set.finite_singleton [Item.word a]).union hfin).subset
  intro cs hcs
  have hcs : Spells g w ([] ++ [a]) i j cs := hcs
  obtain ⟨k, ds, c, hds, rfl, -, hc⟩ := spells_concat hcs
  obtain ⟨rfl, rfl⟩ := spells_nil hds
  rcases hc with ⟨-, rfl⟩ | ⟨s, hs, es, hsa, hes, rfl⟩
  · exact .inl rfl
  · exact .inr (Set.mem_biUnion (x := s) ⟨hs, hsa⟩ ⟨es, hes, rfl⟩)

/-- Two symbols or more split the span into narrower ones. -/
theorem finite_spells_concat (hne : g.hasEmptyRule = false)
    (h : ∀ i j, j < i + n → ∀ α, {cs | Spells g w α i j cs}.Finite) (hn : j ≤ i + n) (hα : α ≠ []) (a : String) :
    {cs | Spells g w (α ++ [a]) i j cs}.Finite := by
  have hfin : (⋃ k ∈ {k | i < k ∧ k < j},
      Set.image2 (· ++ ·) {ds | Spells g w α i k ds} {es | Spells g w [a] k j es}).Finite := by
    apply Set.Finite.biUnion ((Set.finite_lt_nat j).subset fun k hk => hk.2)
    intro k hk
    have hk : i < k ∧ k < j := hk
    exact (h i k (by omega) α).image2 _ (h k j (by omega) [a])
  apply hfin.subset
  intro cs hcs
  obtain ⟨k, ds, c, hds, rfl, hc, -⟩ := spells_concat hcs
  have hlen := List.length_pos_iff.2 hα
  have hik := hds.length_le hne
  have hkj := hc.length_le hne
  rw [List.length_singleton] at hkj
  exact Set.mem_biUnion (x := k) ⟨by omega, by omega⟩ ⟨ds, hds, [c], hc, rfl⟩

theorem finite_spells_below (hne : g.hasEmptyRule = false) (hcyc : g.hasUnitCycle = false) (w : List String) (n : Nat) :
    ∀ i j, j < i + n → ∀ α, {cs | Spells g w α i j cs}.Finite := by
  induction n with
  | zero =>
    intro i j hij α
    apply Set.finite_empty.subset
    intro cs hcs
    have := hcs.bounds.1
    omega
  | succ n ih =>
    intro i j hij
    have hmany : ∀ β : List String, 2 ≤ β.length → {cs | Spells g w β i j cs}.Finite := fun β hβ => by
      rcases List.eq_nil_or_concat' β with rfl | ⟨β, b, rfl⟩
      · simp at hβ
      · refine finite_spells_concat hne ih (by omega) ?_ b
        rintro rfl
        simp at hβ
    have hone : ∀ a, {cs | Spells g w [a] i j cs}.Finite := fun a => by
      apply (Grammar.wellFounded_unit hcyc).induction (C := fun a => {cs | Spells g w [a] i j cs}.Finite) a
      intro a iha
      apply finite_spells_singleton
      intro s hs hsa
      obtain ⟨lhs, rhs⟩ := s
      match rhs with
      | [] => exact finite_spells_nil g w i j
      | [b] =>
        cases hsa
        exact iha b hs
      | _ :: _ :: _ => exact hmany _ (by simp)
    intro α
    match α with
    | [] => exact finite_spells_nil g w i j
    | [a] => exact hone a
    | _ :: _ :: _ => exact hmany _ (by simp)

/-- Only finitely many children derive a string over a span. -/
theorem finite_spells (hne : g.hasEmptyRule = false) (hcyc : g.hasUnitCycle = false) (w α : List String) (i j : Nat) :
    {cs | Spells g w α i j cs}.Finite :=
  finite_spells_below hne hcyc w (j + 1) i j (by omega) α

variable {p : Earley}

theorem exists_bounds (hne : p.grammar.hasEmptyRule = false) (hcyc : p.grammar.hasUnitCycle = false)
    (htop : ∀ r ∈ p.grammar.rules, topSymbol ∉ r.rhs) (hstart : p.start ≠ topSymbol) (w : List String) (k : Nat) :
    ∃ all, Bounds p w k all := by
  have hfin : (⋃ r ∈ {r | r ∈ p.topRule :: p.grammar.rules}, ⋃ d ∈ {d | d < r.rhs.length + 1}, ⋃ i ∈ {i | i < k + 1},
      dotted r d i k '' {cs | Spells p.grammar w (r.rhs.take d) i k cs}).Finite := by
    apply Set.Finite.biUnion (List.finite_toSet _)
    intro r _
    apply Set.Finite.biUnion (Set.finite_lt_nat _)
    intro d _
    apply Set.Finite.biUnion (Set.finite_lt_nat _)
    intro i _
    exact (finite_spells hne hcyc w _ i k).image _
  refine ⟨hfin.toFinset.toList, fun r d i cs hr => ?_⟩
  rw [Finset.mem_toList, Set.Finite.mem_toFinset]
  have hd := hr.dot_le
  have hi := hr.bounds.1
  have hspells := (hr.charted htop hstart).2
  refine Set.mem_biUnion (x := r) ?_ (Set.mem_biUnion (x := d) ?_ (Set.mem_biUnion (x := i) ?_ ⟨cs, hspells, rfl⟩))
  · exact List.mem_cons.2 hr.rule
  · show d < r.rhs.length + 1
    omega
  · show i < k + 1
    omega

end ParseChart.Earley
