import Mathlib.Logic.Relation
import Mathlib.Order.WellFoundedSet
import ParseChart.Grammar.UnitCycle
import ParseChart.Proofs.Grammar.Rules
/-!
# Cycles of unit rules

What waits in a walk can be reached from where it set out, and a walk that ends elsewhere has seen all
that can. So a walk comes back iff a cycle goes through its origin, in whatever order the edges are listed.
Without a cycle one can argue by induction from the right side of a unit rule to its left side.
-/

namespace ParseChart

open Relation

/-- Steps from `a` to `b`, by the places they pass. -/
theorem transGen_iff_walk {α : Type} {r : α → α → Prop} {a b : α} :
    TransGen r a b ↔ ∃ (k : Nat) (s : Nat → α), 1 ≤ k ∧ s 0 = a ∧ s k = b ∧ ∀ i < k, r (s i) (s (i + 1)) := by
  constructor
  · intro h
    induction h with
    | single h =>
      rename_i b
      refine ⟨1, fun i => if i = 0 then a else b, Nat.le_refl 1, rfl, rfl, fun i hi => ?_⟩
      obtain rfl : i = 0 := by omega
      exact h
    | tail _ h ih =>
      rename_i c _
      obtain ⟨k, s, hk, h0, hlast, hs⟩ := ih
      refine ⟨k + 1, fun i => if i ≤ k then s i else c, by omega, by simpa using h0, by simp, fun i hi => ?_⟩
      rcases Nat.lt_succ_iff_lt_or_eq.1 hi with hi | rfl
      · simpa [Nat.le_of_lt hi, Nat.succ_le_of_lt hi] using hs i hi
      · simpa [hlast, Nat.not_succ_le_self] using h
  · rintro ⟨k, s, hk, rfl, rfl, hs⟩
    induction k, hk using Nat.le_induction with
    | base => exact .single (hs 0 (by omega))
    | succ k hk ih => exact .tail (ih fun i hi => hs i (by omega)) (hs k (by omega))

namespace Graph

variable {graph graph' : Graph} {origin a b : String} {seen waiting : List String}

def Leads (graph : Graph) (a b : String) : Prop := b ∈ graph.get a

theorem Leads.mem_keys (h : graph.Leads a b) : a ∈ graph.keys := by
  unfold Leads at h
  induction graph with
  | nil => cases h
  | cons c rest ih =>
    rw [Buckets.get] at h
    rw [Buckets.keys, List.map_cons, List.mem_cons]
    split at h
    · rename_i hc
      exact .inl (beq_iff_eq.1 hc).symm
    · exact .inr (ih h)

/-! ## One walk -/

theorem cycle_of_comesBack (h : comesBack graph origin seen waiting = true)
    (hreached : ∀ b ∈ waiting, TransGen graph.Leads origin b) : TransGen graph.Leads origin origin := by
  fun_induction comesBack graph origin seen waiting with
  | case1 => cases h
  | case2 => exact hreached origin (by simp)
  | case3 seen a waiting _ _ ih => exact ih h fun b hb => hreached b (by simp [hb])
  | case4 seen a waiting _ _ ih =>
    refine ih h fun b hb => ?_
    rcases List.mem_append.1 hb with hb | hb
    · exact (hreached a (by simp)).tail (List.mem_reverse.1 hb)
    · exact hreached b (by simp [hb])

/-- What a walk has seen when nothing waits any more: with each symbol, those to which its edges lead. -/
theorem exists_seen_of_not_comesBack (h : comesBack graph origin seen waiting = false) (hseen : origin ∉ seen) :
    ∃ all : List String, origin ∉ all ∧ (∀ a ∈ seen, a ∈ all) ∧ (∀ a ∈ waiting, a ∈ all) ∧
      ∀ a ∈ all, a ∉ seen → ∀ b, graph.Leads a b → b ∈ all := by
  fun_induction comesBack graph origin seen waiting with
  | case1 seen => exact ⟨seen, hseen, fun a ha => ha, by simp, fun a ha hn => absurd ha hn⟩
  | case2 => cases h
  | case3 seen a waiting _ ha ih =>
    obtain ⟨all, horigin, hold, hwait, hall⟩ := ih h hseen
    exact ⟨all, horigin, hold, List.forall_mem_cons.2 ⟨hold a ha, hwait⟩, hall⟩
  | case4 seen a waiting hne _ ih =>
    obtain ⟨all, horigin, hold, hwait, hall⟩ := ih h (by simp [hseen, Ne.symm hne])
    refine ⟨all, horigin, fun c hc => hold c (by simp [hc]), ?_, fun c hc hn b hb => ?_⟩
    · exact List.forall_mem_cons.2 ⟨hold a (by simp), fun c hc => hwait c (by simp [hc])⟩
    · by_cases hca : c = a
      · subst hca
        exact hwait b (List.mem_append_left _ (List.mem_reverse.2 hb))
      · exact hall c hc (by simp [hca, hn]) b hb

theorem comesBack_iff :
    comesBack graph origin [] (graph.get origin).reverse = true ↔ TransGen graph.Leads origin origin := by
  refine ⟨fun h => cycle_of_comesBack h fun b hb => .single (List.mem_reverse.1 hb), fun hcycle => ?_⟩
  cases h : comesBack graph origin [] (graph.get origin).reverse with
  | true => rfl
  | false =>
    obtain ⟨all, horigin, -, hwait, hall⟩ := exists_seen_of_not_comesBack h (by simp)
    have hreach : ∀ b, TransGen graph.Leads origin b → b ∈ all := by
      intro b hb
      induction hb with
      | single hb => exact hwait _ (List.mem_reverse.2 hb)
      | tail _ hb ih => exact hall _ ih (by simp) _ hb
    exact absurd (hreach origin hcycle) horigin

theorem hasCycle_iff : graph.hasCycle = true ↔ ∃ a, TransGen graph.Leads a a := by
  unfold hasCycle
  simp only [List.any_eq_true, comesBack_iff]
  constructor
  · rintro ⟨a, -, h⟩
    exact ⟨a, h⟩
  · rintro ⟨a, h⟩
    obtain ⟨b, hb, -⟩ := TransGen.head'_iff.1 h
    exact ⟨a, hb.mem_keys, h⟩

/-- Only the edges count. -/
theorem hasCycle_congr (h : ∀ a b, graph.Leads a b ↔ graph'.Leads a b) : graph.hasCycle = graph'.hasCycle := by
  have hleads : graph.Leads = graph'.Leads := by
    funext a b
    exact propext (h a b)
  rw [Bool.eq_iff_iff, hasCycle_iff, hasCycle_iff, hleads]

theorem leads_foldl_add {edges : List Edge} :
    (edges.foldl (fun graph e => graph.add e.1 e.2) graph).Leads a b ↔ graph.Leads a b ∨ (a, b) ∈ edges := by
  induction edges generalizing graph with
  | nil => simp
  | cons e edges ih =>
    rw [List.foldl_cons, ih, List.mem_cons, ← or_assoc]
    apply or_congr_left
    obtain ⟨c, d⟩ := e
    unfold Leads
    rw [Buckets.get_add, List.mem_append]
    apply or_congr_right
    rw [Prod.mk.injEq]
    by_cases hc : c = a
    · simp [hc]
    · simp [hc, Ne.symm hc]

end Graph

namespace Grammar

variable {g : Grammar} {a b : String}

theorem unitEdge?_eq_some {r : Rule} : g.unitEdge? r = some (a, b) ↔ r = ⟨a, [b]⟩ ∧ g.isTerminal b = false := by
  obtain ⟨lhs, rhs⟩ := r
  match rhs with
  | [] | _ :: _ :: _ => simp [unitEdge?]
  | [c] =>
    simp only [unitEdge?, Option.ite_none_left_eq_some, Bool.not_eq_true, Option.some.injEq, Prod.mk.injEq, Rule.mk.injEq,
      List.cons.injEq, and_true]
    constructor
    · rintro ⟨ht, rfl, rfl⟩
      exact ⟨⟨rfl, rfl⟩, ht⟩
    · rintro ⟨⟨rfl, rfl⟩, ht⟩
      exact ⟨ht, rfl, rfl⟩

/-- The edges of the graph are the rules from a nonterminal to a nonterminal. -/
theorem leads_unitGraph : g.unitGraph.Leads a b ↔ ⟨a, [b]⟩ ∈ g.rules ∧ b ∈ g.nonterminals := by
  unfold unitGraph
  rw [Graph.leads_foldl_add, List.mem_filterMap, mem_nonterminals]
  simp only [unitEdge?_eq_some, Graph.Leads, Buckets.get, List.not_mem_nil, false_or]
  constructor
  · rintro ⟨r, hr, rfl, hb⟩
    exact ⟨hr, hb⟩
  · rintro ⟨hr, hb⟩
    exact ⟨_, hr, rfl, hb⟩

theorem hasUnitCycle_iff : g.hasUnitCycle = true ↔ ∃ a, TransGen g.unitGraph.Leads a a := Graph.hasCycle_iff

/-! ## Grammars without a cycle -/

/-- Unit rules lead down. -/
theorem wellFounded_unit (h : g.hasUnitCycle = false) : WellFounded fun b a : String => ⟨a, [b]⟩ ∈ g.rules := by
  have hirrefl : ∀ a, ¬ TransGen g.unitGraph.Leads a a := fun a ha => by
    rw [hasUnitCycle_iff.2 ⟨a, ha⟩] at h
    cases h
  have horder : IsStrictOrder String fun b a => TransGen g.unitGraph.Leads a b :=
    { irrefl := hirrefl, trans := fun _ _ _ hab hbc => hbc.trans hab }
  have hwf := Set.wellFoundedOn_iff.1 ((List.finite_toSet g.nonterminals).wellFoundedOn (r := fun b a =>
    TransGen g.unitGraph.Leads a b))
  refine ⟨fun a => hwf.induction a fun a ih => ⟨a, fun b hb => ?_⟩⟩
  cases ht : g.isTerminal b with
  | true => exact ⟨b, fun c hc => absurd rfl (isTerminal_iff.1 ht _ hc)⟩
  | false =>
    have hb' := mem_nonterminals.2 ht
    exact ih b ⟨.single (leads_unitGraph.2 ⟨hb, hb'⟩), hb', mem_nonterminals.2 (isTerminal_eq_false hb)⟩

theorem hasUnitCycle_of_wellFounded (h : WellFounded fun b a : String => ⟨a, [b]⟩ ∈ g.rules) : g.hasUnitCycle = false := by
  rw [← Bool.not_eq_true, hasUnitCycle_iff]
  rintro ⟨a, ha⟩
  have hdown : TransGen (fun b a : String => ⟨a, [b]⟩ ∈ g.rules) a a :=
    transGen_swap.1 (ha.lift id fun _ _ hab => (leads_unitGraph.1 hab).1)
  exact h.transGen.irrefl.irrefl a hdown

theorem hasUnitCycle_eq_false (h : g.rules.filterMap g.unitEdge? = []) : g.hasUnitCycle = false := by
  unfold hasUnitCycle unitGraph
  rw [h]
  rfl

/-- A grammar in normal form has neither empty rules nor unit rules. -/
theorem accepted_of_normalForm (h : g.isNormalForm = true) : g.hasEmptyRule = false ∧ g.hasUnitCycle = false := by
  constructor
  · rw [hasEmptyRule_eq_false]
    intro r hr he
    rcases normalForm_cases h hr with ⟨a, ha, -⟩ | ⟨b, c, hbc, -⟩ <;> simp_all
  · refine hasUnitCycle_eq_false (List.filterMap_eq_nil_iff.2 fun r hr => ?_)
    rw [Option.eq_none_iff_forall_ne_some]
    rintro ⟨a, b⟩ he
    obtain ⟨rfl, ht⟩ := unitEdge?_eq_some.1 he
    rcases normalForm_cases h hr with ⟨c, hc, hct⟩ | ⟨c, d, hcd, -⟩ <;> simp_all

/-! ## Detection -/

/-- Nonterminals, each of which derives the next by a unit rule, and the last is the first. -/
structure UnitCycle (g : Grammar) (k : Nat) (a : Nat → String) : Prop where
  pos : 1 ≤ k
  closed : a k = a 0
  nonterminals : ∀ i ≤ k, a i ∈ g.nonterminals
  rules : ∀ i < k, ⟨a i, [a (i + 1)]⟩ ∈ g.rules

theorem exists_unitCycle_iff : (∃ k a, g.UnitCycle k a) ↔ ∃ a, TransGen g.unitGraph.Leads a a := by
  constructor
  · rintro ⟨k, a, hk, hclosed, hnon, hrules⟩
    exact ⟨a 0, transGen_iff_walk.2 ⟨k, a, hk, rfl, hclosed, fun i hi =>
      leads_unitGraph.2 ⟨hrules i hi, hnon (i + 1) hi⟩⟩⟩
  · rintro ⟨b, h⟩
    obtain ⟨k, a, hk, h0, hlast, hs⟩ := transGen_iff_walk.1 h
    have hs := fun i hi => leads_unitGraph.1 (hs i hi)
    have hnext : ∀ i < k, a (i + 1) ∈ g.nonterminals := fun i hi => (hs i hi).2
    refine ⟨k, a, hk, hlast.trans h0.symm, fun i hi => ?_, fun i hi => (hs i hi).1⟩
    cases i with
    | zero =>
      obtain ⟨l, rfl⟩ : ∃ l, k = l + 1 := ⟨k - 1, by omega⟩
      rw [h0, ← hlast]
      exact hnext l (by omega)
    | succ i => exact hnext i hi

/-- The search ends, as each turn uses up a symbol that waits or the edges of one not seen before, and it finds a cycle iff
there is one, however the symbols to which the unit rules lead are listed. -/
theorem hasUnitCycle_exact (g : Grammar) :
    (g.hasUnitCycle = true ↔ ∃ k a, g.UnitCycle k a) ∧
      ∀ graph : Graph, (∀ a b, b ∈ graph.get a ↔ ⟨a, [b]⟩ ∈ g.rules ∧ b ∈ g.nonterminals) →
        graph.hasCycle = g.hasUnitCycle :=
  ⟨hasUnitCycle_iff.trans exists_unitCycle_iff.symm,
    fun _ h => Graph.hasCycle_congr fun a b => (h a b).trans leads_unitGraph.symm⟩

/-- A cycle that does not go through the start symbol. -/
def circling : Grammar where
  groups := groupRules [⟨"S", ["A"]⟩, ⟨"S", ["B"]⟩, ⟨"A", ["B"]⟩, ⟨"B", ["A"]⟩, ⟨"B", ["b"]⟩]
  start := "S"
  grouped := ⟨_, rfl⟩
  start_mem := by decide

/-- The walk from the start symbol, that from `A`, and the same with all listed the other way round. -/
theorem hasUnitCycle_exact_circling :
    let graph : Graph := [⟨"B", ["A"]⟩, ⟨"A", ["B"]⟩, ⟨"S", ["B", "A"]⟩]
    (∀ a b, b ∈ graph.get a ↔ ⟨a, [b]⟩ ∈ circling.rules ∧ b ∈ circling.nonterminals) ∧
      circling.hasUnitCycle = true ∧ graph.hasCycle = true := by
  intro graph
  have hrules : circling.rules = [⟨"S", ["A"]⟩, ⟨"S", ["B"]⟩, ⟨"A", ["B"]⟩, ⟨"B", ["A"]⟩, ⟨"B", ["b"]⟩] := by decide
  have hnon : circling.nonterminals = ["S", "A", "B"] := by decide
  have hgraph : ∀ a b, b ∈ graph.get a ↔ ⟨a, [b]⟩ ∈ circling.rules ∧ b ∈ circling.nonterminals := by
    intro a b
    rw [hrules, hnon]
    simp only [graph, Buckets.get, beq_iff_eq]
    grind
  have hcycle : circling.hasUnitCycle = true := (hasUnitCycle_exact circling).1.2 ⟨2, fun i => if i % 2 = 0 then "A" else "B",
    by decide, rfl, by decide, by decide⟩
  exact ⟨hgraph, hcycle, ((hasUnitCycle_exact circling).2 graph hgraph).trans hcycle⟩

end Grammar

end ParseChart
