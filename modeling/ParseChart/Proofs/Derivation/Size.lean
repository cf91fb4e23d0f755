import Mathlib.Data.List.Basic
import ParseChart.Proofs.Derivation
import ParseChart.Proofs.Grammar.UnitCycle
/-!
# The size of derivation trees

Without cycles of unit rules no symbol stands twice on a chain of nodes with one child each, and without empty
rules a chain ends in a leaf or in a branching, of which there are fewer than leaves. So the inner nodes of a
derivation tree are bounded by the numbers of its leaves and of the nonterminals.
-/

namespace ParseChart

open Relation

namespace Tree

mutual

/-- The number of inner nodes. -/
def size : Tree → Nat
  | .word _ => 0
  | .node _ children => sizeAll children + 1

def sizeAll : List Tree → Nat
  | [] => 0
  | t :: ts => size t + sizeAll ts

end

end Tree

namespace Grammar

variable {g : Grammar} {chain : List String} {a b : String}

theorem mem_nonterminals_of_rule {r : Rule} (h : r ∈ g.rules) : r.lhs ∈ g.nonterminals :=
  mem_nonterminals.2 (isTerminal_eq_false h)

/-- Nonterminals, each once, from which unit rules lead down to a symbol. -/
structure Chain (g : Grammar) (chain : List String) (a : String) : Prop where
  nodup : chain.Nodup
  nonterminals : ∀ b ∈ chain, b ∈ g.nonterminals
  leads : ∀ b ∈ chain, TransGen (fun b a => ⟨a, [b]⟩ ∈ g.rules) a b

theorem chain_nil (g : Grammar) (a : String) : g.Chain [] a := ⟨.nil, by simp, by simp⟩

theorem Chain.length_le (h : g.Chain chain a) : chain.length ≤ g.nonterminals.length :=
  h.nodup.length_le_of_subset h.nonterminals

section NoCycle

variable (hcyc : g.hasUnitCycle = false)
include hcyc

/-- A symbol below itself would make a cycle. -/
theorem Chain.not_mem (h : g.Chain chain a) : a ∉ chain := fun ha =>
  (wellFounded_unit hcyc).transGen.irrefl.irrefl a (h.leads a ha)

theorem Chain.length_lt (h : g.Chain chain a) (ha : a ∈ g.nonterminals) : chain.length < g.nonterminals.length := by
  have hn : (a :: chain).Nodup := List.nodup_cons.2 ⟨h.not_mem hcyc, h.nodup⟩
  exact hn.length_le_of_subset (List.cons_subset.2 ⟨ha, h.nonterminals⟩)

theorem Chain.cons (h : g.Chain chain a) (hr : ⟨a, [b]⟩ ∈ g.rules) : g.Chain (a :: chain) b where
  nodup := List.nodup_cons.2 ⟨h.not_mem hcyc, h.nodup⟩
  nonterminals := List.forall_mem_cons.2 ⟨mem_nonterminals_of_rule hr, h.nonterminals⟩
  leads := List.forall_mem_cons.2 ⟨.single hr, fun c hc => .head hr (h.leads c hc)⟩

end NoCycle

end Grammar

namespace Tree

variable {g : Grammar}

mutual

/-- The bound for a tree below a chain of unit rules, whose nodes are counted with it. Each leaf and each branching
closes one chain, and there is a branching less than there are leaves. -/
theorem size_add_le (hne : g.hasEmptyRule = false) (hcyc : g.hasUnitCycle = false) :
    ∀ (t : Tree) {chain : List String}, t.obeys g = true → g.Chain chain t.root →
      t.size + chain.length + g.nonterminals.length ≤ g.nonterminals.length * (2 * t.leaves.length)
  | .word a, chain, _, hchain => by
    have := hchain.length_le
    simp only [size, leaves, List.length_singleton]
    omega
  | .node a [], _, ho, _ => by
    simp only [obeys, Bool.and_eq_true, decide_eq_true_eq] at ho
    exact absurd rfl (Grammar.hasEmptyRule_eq_false.1 hne _ ho.1)
  | .node a [t], chain, ho, hchain => by
    simp only [obeys, obeysAll, Bool.and_eq_true, decide_eq_true_eq, and_true] at ho
    have h := size_add_le hne hcyc t ho.2 (hchain.cons hcyc ho.1)
    simp only [size, sizeAll, leaves, leavesAll, List.append_nil, List.length_cons] at h ⊢
    omega
  | .node a (t :: u :: ts), chain, ho, hchain => by
    simp only [obeys, Bool.and_eq_true, decide_eq_true_eq] at ho
    have h := sizeAll_add_le hne hcyc (t :: u :: ts) ho.2
    have hlt := hchain.length_lt hcyc (Grammar.mem_nonterminals_of_rule ho.1)
    have htwo : g.nonterminals.length * 2 ≤ g.nonterminals.length * (t :: u :: ts).length :=
      Nat.mul_le_mul_left _ (by simp)
    simp only [size, leaves] at h ⊢
    omega

theorem sizeAll_add_le (hne : g.hasEmptyRule = false) (hcyc : g.hasUnitCycle = false) :
    ∀ ts : List Tree, obeysAll g ts = true →
      sizeAll ts + g.nonterminals.length * ts.length ≤ g.nonterminals.length * (2 * (leavesAll ts).length)
  | [], _ => by simp [sizeAll]
  | t :: ts, ho => by
    simp only [obeysAll, Bool.and_eq_true] at ho
    have h := size_add_le hne hcyc t ho.1 (g.chain_nil t.root)
    have hrest := sizeAll_add_le hne hcyc ts ho.2
    simp only [sizeAll, leavesAll, List.length_append, List.length_cons, List.length_nil, Nat.mul_add,
      Nat.mul_one] at h hrest ⊢
    omega

end

/-- A tree with `n` leaves has `n` chains that end in a leaf and up to `n - 1` that end in a branching. -/
theorem size_le (hne : g.hasEmptyRule = false) (hcyc : g.hasUnitCycle = false) {t : Tree} (ho : t.obeys g = true) :
    t.size ≤ g.nonterminals.length * (2 * t.leaves.length - 1) := by
  have h := size_add_le hne hcyc t ho (g.chain_nil t.root)
  rw [List.length_nil, Nat.add_zero] at h
  rw [Nat.mul_sub, Nat.mul_one]
  exact Nat.le_sub_of_add_le h

end Tree

end ParseChart
