import ParseChart.Earley
import ParseChart.Proofs.Chart.Filing
import ParseChart.Proofs.Item
import ParseChart.Proofs.Grammar.Rules
/-!
# The items of an Earley parse

`Reached` generates the items of a parse as the algorithm does: from the item of the start by
prediction, scanning and completion. Here stand the facts about them that need no chart and hold of
every grammar without empty rules: where their dots and spans lie, and what their children are.
-/

namespace ParseChart

open ChartItem

/-- A dotted rule between two positions. -/
def dotted (r : Rule) (d i j : Nat) (children : List Item) : Item := .earley r d (.between i j) children

theorem dotted_inj {r r' : Rule} {d d' i i' j j' : Nat} {cs cs' : List Item}
    (h : dotted r d i j cs = dotted r' d' i' j' cs') : r = r' ∧ d = d' ∧ i = i' ∧ j = j' ∧ cs = cs' := by
  simp only [dotted, Span.between, Item.earley.injEq, Span.mk.injEq, Value.int.injEq, Int.natCast_inj] at h
  simpa [and_assoc] using h

theorem plain_dotted (r : Rule) (d i j : Nat) (cs : List Item) : (dotted r d i j cs).plain = Item.plainAll cs := by
  simp [dotted, Item.plain]

theorem over_dotted {r : Rule} {d i j : Nat} {cs : List Item} : Over (dotted r d i j cs) i j :=
  ⟨⟨_, rfl, rfl⟩, rfl, rfl⟩

theorem symbolAt_nat (r : Rule) (d : Nat) : r.symbolAt d = .ok r.rhs[d]? := by
  have h0 : ¬ (d : Int) < 0 := by omega
  simp only [Rule.symbolAt, if_neg h0]
  split
  · rw [List.getElem?_eq_none (by omega)]
  · rw [Int.toNat_natCast]

namespace Earley

/-- The rule above the start symbol. -/
def topRule (p : Earley) : Rule := ⟨topSymbol, [p.start]⟩

theorem over_startItem (p : Earley) : Over p.startItem 0 0 := over_dotted

/-- What the algorithm makes: `Reached r d i j cs` for the item of `r` with dot `d` over `i..j`. -/
inductive Reached (p : Earley) (w : List String) : Rule → Nat → Nat → Nat → List Item → Prop
  | start : Reached p w p.topRule 0 0 0 []
  | predict {r d i j cs s} : Reached p w r d i j cs → s ∈ p.grammar.rules → r.rhs[d]? = some s.lhs →
      Reached p w s 0 j j []
  | scan {r d i j cs a} : Reached p w r d i j cs → r.rhs[d]? = some a → p.grammar.isTerminal a = true →
      w[j]? = some a → Reached p w r (d + 1) i (j + 1) (cs ++ [.word a])
  | complete {r d i j cs s k ds} : Reached p w r d i j cs → Reached p w s s.rhs.length j k ds →
      r.rhs[d]? = some s.lhs → Reached p w r (d + 1) i k (cs ++ [dotted s s.rhs.length j k ds])

variable {p : Earley} {w : List String} {r : Rule} {d i j : Nat} {cs : List Item}

theorem Reached.rule (h : Reached p w r d i j cs) : r = p.topRule ∨ r ∈ p.grammar.rules := by
  induction h with
  | start => exact .inl rfl
  | predict _ hs => exact .inr hs
  | scan _ _ _ _ ih => exact ih
  | complete _ _ _ ih => exact ih

theorem Reached.dot_le (h : Reached p w r d i j cs) : d ≤ r.rhs.length := by
  cases h with
  | start => exact Nat.zero_le _
  | predict => exact Nat.zero_le _
  | scan _ ha => exact (List.getElem?_eq_some_iff.1 ha).1
  | complete _ _ hs => exact (List.getElem?_eq_some_iff.1 hs).1

theorem Reached.bounds (h : Reached p w r d i j cs) : i ≤ j ∧ j ≤ w.length := by
  induction h with
  | start => exact ⟨Nat.le_refl _, Nat.zero_le _⟩
  | predict _ _ _ ih => exact ⟨Nat.le_refl _, ih.2⟩
  | scan _ _ _ hw ih =>
    have := (List.getElem?_eq_some_iff.1 hw).1
    omega
  | complete _ _ _ ih ih' => omega

theorem Reached.plain (h : Reached p w r d i j cs) : Item.plainAll cs = true := by
  induction h with
  | start => rfl
  | predict => rfl
  | scan _ _ _ _ ih => simp [Item.plainAll_append, Item.plainAll, Item.plain, ih]
  | complete _ _ _ ih ih' => simp [Item.plainAll_append, Item.plainAll, plain_dotted, ih, ih']

theorem Reached.rhs_ne_nil (hne : p.grammar.hasEmptyRule = false) (h : Reached p w r d i j cs) : r.rhs ≠ [] := by
  rcases h.rule with rfl | hr
  · simp [topRule]
  · exact Grammar.hasEmptyRule_eq_false.1 hne r hr

/-- Without empty rules each symbol before the dot spans a word or more. -/
theorem Reached.dot_le_width (hne : p.grammar.hasEmptyRule = false) (h : Reached p w r d i j cs) : i + d ≤ j := by
  induction h with
  | start => omega
  | predict => omega
  | scan _ _ _ _ ih => omega
  | complete _ hs _ ih ih' =>
    have := List.length_pos_iff.2 (hs.rhs_ne_nil hne)
    omega

/-- So a complete item is not empty. -/
theorem Reached.lt_of_complete (hne : p.grammar.hasEmptyRule = false) (h : Reached p w r d i j cs)
    (hd : r.rhs[d]? = none) : i < j := by
  have := h.dot_le_width hne
  have := List.length_pos_iff.2 (h.rhs_ne_nil hne)
  have := List.getElem?_eq_none_iff.1 hd
  omega

end Earley

end ParseChart
