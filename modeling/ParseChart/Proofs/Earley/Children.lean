import Mathlib.Data.List.Induction
import ParseChart.Proofs.Derivation
import ParseChart.Proofs.Earley.Items
/-!
# Children before the dot

`Spells` says which children derive a string of symbols over a span: a word for a terminal, a complete
item of a rule for a nonterminal, one after another without a gap. Such children are the items of
derivation trees for the words of the span, and every list of derivation trees has its items.
-/

namespace ParseChart.Earley

inductive Spells (g : Grammar) (w : List String) : List String → Nat → Nat → List Item → Prop
  | nil {i} : i ≤ w.length → Spells g w [] i i []
  | word {α i j cs a} : Spells g w α i j cs → g.isTerminal a = true → w[j]? = some a →
      Spells g w (α ++ [a]) i (j + 1) (cs ++ [.word a])
  | item {α i j cs s k ds} : Spells g w α i j cs → s ∈ g.rules → Spells g w s.rhs j k ds →
      Spells g w (α ++ [s.lhs]) i k (cs ++ [dotted s s.rhs.length j k ds])

variable {g : Grammar} {w : List String} {α β : List String} {i j k : Nat} {cs ds : List Item}

theorem Spells.bounds (h : Spells g w α i j cs) : i ≤ j ∧ j ≤ w.length := by
  induction h with
  | nil hi => exact ⟨Nat.le_refl _, hi⟩
  | word _ _ hw ih =>
    have := (List.getElem?_eq_some_iff.1 hw).1
    omega
  | item _ _ _ ih ih' => omega

/-- Without empty rules each symbol takes a word or more. -/
theorem Spells.length_le (hne : g.hasEmptyRule = false) (h : Spells g w α i j cs) : i + α.length ≤ j := by
  induction h with
  | nil => simp
  | word _ _ _ ih =>
    rw [List.length_append, List.length_singleton]
    omega
  | item _ hs _ ih ih' =>
    have := List.length_pos_iff.2 (Grammar.hasEmptyRule_eq_false.1 hne _ hs)
    rw [List.length_append, List.length_singleton]
    omega

theorem Spells.append (h : Spells g w α i j cs) (h' : Spells g w β j k ds) : Spells g w (α ++ β) i k (cs ++ ds) := by
  induction h' with
  | nil => simpa using h
  | word _ ha hw ih =>
    rw [← List.append_assoc, ← List.append_assoc]
    exact (ih h).word ha hw
  | item _ hs hd ih _ =>
    rw [← List.append_assoc, ← List.append_assoc]
    exact (ih h).item hs hd

theorem spells_nil (h : Spells g w [] i j cs) : i = j ∧ cs = [] := by
  generalize hα : [] = α at h
  cases h with
  | nil => exact ⟨rfl, rfl⟩
  | word => simp at hα
  | item => simp at hα

/-- The children of a string with a last symbol end with its word or its item. -/
theorem spells_concat {a : String} (h : Spells g w (α ++ [a]) i k cs) :
    ∃ j ds c, Spells g w α i j ds ∧ cs = ds ++ [c] ∧ Spells g w [a] j k [c] ∧
      ((g.isTerminal a = true ∧ c = .word a) ∨
        ∃ s ∈ g.rules, ∃ es, s.lhs = a ∧ Spells g w s.rhs j k es ∧ c = dotted s s.rhs.length j k es) := by
  generalize hα : α ++ [a] = γ at h
  cases h with
  | nil => simp at hα
  | word h ha hw =>
    obtain ⟨rfl, hl⟩ := List.append_inj' hα rfl
    cases hl
    exact ⟨_, _, _, h, rfl, (Spells.nil h.bounds.2).word ha hw, .inl ⟨ha, rfl⟩⟩
  | item h hs hd =>
    obtain ⟨rfl, hl⟩ := List.append_inj' hα rfl
    cases hl
    exact ⟨_, _, _, h, rfl, (Spells.nil h.bounds.2).item hs hd, .inr ⟨_, hs, _, rfl, hd, rfl⟩⟩

theorem spells_append (h : Spells g w (α ++ β) i k cs) :
    ∃ j ds es, Spells g w α i j ds ∧ Spells g w β j k es ∧ cs = ds ++ es := by
  induction β using List.reverseRecOn generalizing k cs with
  | nil => exact ⟨k, cs, [], by simpa using h, .nil h.bounds.2, by simp⟩
  | append_singleton β a ih =>
    rw [← List.append_assoc] at h
    obtain ⟨m, ds, c, hds, rfl, hc, -⟩ := spells_concat h
    obtain ⟨j, es, fs, hes, hfs, rfl⟩ := ih hds
    exact ⟨j, es, fs ++ [c], hes, hfs.append hc, by simp⟩

/-! ## Children and trees -/

/-- The children are the items of trees. -/
theorem Spells.trees (h : Spells g w α i j cs) : ∃ ts, ts.map Tree.root = α ∧ Tree.obeysAll g ts = true ∧
    Tree.leavesAll ts = slice w i j ∧ cs = Tree.itemAll .earley i ts := by
  induction h with
  | nil => exact ⟨[], rfl, rfl, (slice_self _ _).symm, rfl⟩
  | @word α i j cs a h ha hw ih =>
    obtain ⟨ts, rfl, ho, hl, rfl⟩ := ih
    obtain ⟨hij, hj⟩ := h.bounds
    refine ⟨ts ++ [.word a], by simp [Tree.root], ?_, ?_, ?_⟩
    · simp [Tree.obeysAll_append, Tree.obeysAll, Tree.obeys, ho, ha]
    · rw [Tree.leavesAll_append, hl, ← slice_append hij (Nat.le_succ j), slice_succ hw]
      rfl
    · rw [Tree.itemAll_append]
      rfl
  | @item α i j cs s k ds h hs h' ih ih' =>
    obtain ⟨ts, rfl, ho, hl, rfl⟩ := ih
    obtain ⟨us, hr, ho', hl', rfl⟩ := ih'
    obtain ⟨hij, hj⟩ := h.bounds
    obtain ⟨hjk, hk⟩ := h'.bounds
    refine ⟨ts ++ [.node s.lhs us], by simp [Tree.root], ?_, ?_, ?_⟩
    · simp [Tree.obeysAll_append, Tree.obeysAll, Tree.obeys, ho, ho', hr, hs]
    · rw [Tree.leavesAll_append, hl, ← slice_append hij hjk, ← hl']
      simp [Tree.leavesAll, Tree.leaves]
    · have hlen : i + (Tree.leavesAll ts).length = j := by rw [hl, length_slice hj]; omega
      have hlen' : j + (Tree.leavesAll us).length = k := by rw [hl', length_slice hk]; omega
      simp [Tree.itemAll_append, Tree.itemAll, Tree.item, Kind.constituent, hlen, hlen', hr, dotted]

mutual

theorem spells_of_tree : ∀ (t : Tree) {i j : Nat}, t.obeys g = true → t.leaves = slice w i j → i ≤ j → j ≤ w.length →
    Spells g w [t.root] i j [t.item .earley i]
  | .word a, i, j, ho, hl, hij, hj => by
    have hlen := congrArg List.length hl
    rw [length_slice hj] at hlen
    obtain rfl : j = i + 1 := by simp [Tree.leaves] at hlen; omega
    exact (Spells.nil (by omega)).word ho (getElem?_of_slice hl.symm)
  | .node a ts, i, j, ho, hl, hij, hj => by
    simp only [Tree.obeys, Bool.and_eq_true, decide_eq_true_eq] at ho
    have hts := spells_of_trees ts ho.2 hl hij hj
    have hlen : i + (Tree.leavesAll ts).length = j := by
      rw [show Tree.leavesAll ts = slice w i j from hl, length_slice hj]
      omega
    have h := (Spells.nil (show i ≤ w.length by omega)).item ho.1 hts
    simpa [Tree.item, Kind.constituent, Tree.root, hlen, dotted] using h

theorem spells_of_trees : ∀ (ts : List Tree) {i j : Nat}, Tree.obeysAll g ts = true → Tree.leavesAll ts = slice w i j →
    i ≤ j → j ≤ w.length → Spells g w (ts.map Tree.root) i j (Tree.itemAll .earley i ts)
  | [], i, j, _, hl, hij, hj => by
    have hlen := congrArg List.length hl
    rw [length_slice hj] at hlen
    obtain rfl : j = i := by simp [Tree.leavesAll] at hlen; omega
    exact .nil hj
  | t :: ts, i, j, ho, hl, hij, hj => by
    simp only [Tree.obeysAll, Bool.and_eq_true] at ho
    obtain ⟨hm, ht, hts⟩ := slice_eq_append hj (show t.leaves ++ Tree.leavesAll ts = slice w i j from hl) hij
    exact (spells_of_tree t ho.1 ht (Nat.le_add_right _ _) (by omega)).append (spells_of_trees ts ho.2 hts hm hj)

end

end ParseChart.Earley
