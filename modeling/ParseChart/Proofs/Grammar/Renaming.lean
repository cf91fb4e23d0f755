import Mathlib.Data.List.Basic
import ParseChart.Proofs.Derivation
import ParseChart.Proofs.Grammar.UnitCycle
/-!
# Renamed grammars

Symbols are told apart and no more, so another name for each of them, distinct symbols keeping distinct
names, changes nothing: the renamed grammar is accepted if the grammar is, and its derivation trees are the
renamed trees.
-/

namespace ParseChart

def Rule.rename (f : String → String) (r : Rule) : Rule := ⟨f r.lhs, r.rhs.map f⟩

namespace Tree

mutual

def rename (f : String → String) : Tree → Tree
  | .word text => .word (f text)
  | .node label children => .node (f label) (renameAll f children)

def renameAll (f : String → String) : List Tree → List Tree
  | [] => []
  | t :: ts => rename f t :: renameAll f ts

end

variable {f : String → String}

theorem root_rename (t : Tree) : (t.rename f).root = f t.root := by cases t <;> rfl

theorem map_root_renameAll (ts : List Tree) : (renameAll f ts).map root = (ts.map root).map f := by
  induction ts with
  | nil => rfl
  | cons t ts ih => simp [renameAll, root_rename, ih]

mutual

theorem leaves_rename : ∀ t : Tree, (t.rename f).leaves = t.leaves.map f
  | .word _ => rfl
  | .node _ ts => by rw [rename, leaves, leaves, leavesAll_renameAll ts]

theorem leavesAll_renameAll : ∀ ts : List Tree, leavesAll (renameAll f ts) = (leavesAll ts).map f
  | [] => rfl
  | t :: ts => by rw [renameAll, leavesAll, leavesAll, leaves_rename t, leavesAll_renameAll ts, List.map_append]

end

mutual

theorem rename_inj (hf : Function.Injective f) : ∀ {t u : Tree}, t.rename f = u.rename f → t = u
  | .word _, .word _, h => by
    simp only [rename, Tree.word.injEq] at h
    rw [hf h]
  | .node _ ts, .node _ us, h => by
    simp only [rename, Tree.node.injEq] at h
    rw [hf h.1, renameAll_inj hf h.2]
  | .word _, .node _ _, h | .node _ _, .word _, h => by simp [rename] at h

theorem renameAll_inj (hf : Function.Injective f) : ∀ {ts us : List Tree}, renameAll f ts = renameAll f us → ts = us
  | [], [], _ => rfl
  | t :: ts, u :: us, h => by
    simp only [renameAll, List.cons.injEq] at h
    rw [rename_inj hf h.1, renameAll_inj hf h.2]
  | [], _ :: _, h | _ :: _, [], h => by simp [renameAll] at h

end

end Tree

namespace Grammar

/-- The rules of one grammar are those of the other under other names. -/
def Renames (f : String → String) (g g' : Grammar) : Prop := ∀ r, r ∈ g'.rules ↔ ∃ s ∈ g.rules, r = s.rename f

variable {f : String → String} {g g' : Grammar} {a : String} {words : List String} {t : Tree}

section Renames

variable (hf : Function.Injective f) (h : Renames f g g')
include hf h

theorem Renames.isTerminal (a : String) : g'.isTerminal (f a) = g.isTerminal a := by
  rw [Bool.eq_iff_iff, isTerminal_iff, isTerminal_iff]
  constructor
  · intro hnone r hr hlhs
    exact hnone (r.rename f) ((h _).2 ⟨r, hr, rfl⟩) (congrArg f hlhs)
  · intro hnone r hr hlhs
    obtain ⟨s, hs, rfl⟩ := (h r).1 hr
    exact hnone s hs (hf hlhs)

theorem Renames.mem_rules {r : Rule} : r.rename f ∈ g'.rules ↔ r ∈ g.rules := by
  constructor
  · intro hr
    obtain ⟨s, hs, he⟩ := (h _).1 hr
    obtain ⟨lhs, rhs⟩ := r
    obtain ⟨lhs', rhs'⟩ := s
    simp only [Rule.rename, Rule.mk.injEq] at he
    obtain ⟨hlhs, hrhs⟩ := he
    rwa [hf hlhs, List.map_injective_iff.2 hf hrhs]
  · exact fun hr => (h _).2 ⟨r, hr, rfl⟩

omit hf in
/-- Renaming makes no empty rule. -/
theorem Renames.hasEmptyRule (hne : g.hasEmptyRule = false) : g'.hasEmptyRule = false := by
  rw [hasEmptyRule_eq_false] at hne ⊢
  intro r hr he
  obtain ⟨s, hs, rfl⟩ := (h r).1 hr
  exact hne s hs (List.map_eq_nil_iff.1 he)

/-- The unit rules lead down still. -/
theorem Renames.hasUnitCycle (hcyc : g.hasUnitCycle = false) : g'.hasUnitCycle = false := by
  apply hasUnitCycle_of_wellFounded
  have hacc : ∀ a, Acc (fun b a : String => ⟨a, [b]⟩ ∈ g'.rules) (f a) := fun a => by
    apply (wellFounded_unit hcyc).induction (C := fun a => Acc (fun b a : String => ⟨a, [b]⟩ ∈ g'.rules) (f a)) a
    intro a ih
    refine ⟨f a, fun b' hb' => ?_⟩
    obtain ⟨⟨lhs, rhs⟩, hs, he⟩ := (h _).1 hb'
    simp only [Rule.rename, Rule.mk.injEq] at he
    obtain ⟨b, rfl, rfl⟩ := List.map_eq_singleton_iff.1 he.2.symm
    obtain rfl := hf he.1
    exact ih b hs
  -- A symbol that is no new name is the left side of no rule.
  refine ⟨fun a' => ⟨a', fun b' hb' => ?_⟩⟩
  obtain ⟨s, -, he⟩ := (h _).1 hb'
  obtain ⟨b, -, rfl⟩ := List.map_eq_singleton_iff.1 (congrArg Rule.rhs he).symm
  exact hacc b

end Renames

/-- The rules under other names make a grammar if the rules do. -/
theorem exists_renames {rules : List Rule} {start : String} (f : String → String) (hg : ofRules rules start = .ok g) :
    ∃ g', ofRules (rules.map (Rule.rename f)) (f start) = .ok g' ∧ g'.start = f g.start ∧ Renames f g g' := by
  obtain ⟨r, hr, hlhs⟩ := exists_ofRules.1 ⟨g, hg⟩
  obtain ⟨g', hg'⟩ : ∃ g', ofRules (rules.map (Rule.rename f)) (f start) = .ok g' :=
    exists_ofRules.2 ⟨r.rename f, List.mem_map_of_mem hr, congrArg f hlhs⟩
  obtain ⟨hstart, hrules⟩ := of_ofRules hg
  obtain ⟨hstart', hrules'⟩ := of_ofRules hg'
  refine ⟨g', hg', by rw [hstart', hstart], fun s => ?_⟩
  rw [hrules', List.mem_map]
  constructor
  · rintro ⟨u, hu, rfl⟩
    exact ⟨u, (hrules u).2 hu, rfl⟩
  · rintro ⟨u, hu, rfl⟩
    exact ⟨u, (hrules u).1 hu, rfl⟩

/-! ## Derivation trees -/

mutual

theorem Renames.obeys_rename (hf : Function.Injective f) (h : Renames f g g') :
    ∀ t : Tree, (t.rename f).obeys g' = t.obeys g
  | .word a => h.isTerminal hf a
  | .node a ts => by
    have hrule : (⟨f a, (Tree.renameAll f ts).map Tree.root⟩ : Rule) = Rule.rename f ⟨a, ts.map Tree.root⟩ := by
      rw [Tree.map_root_renameAll, Rule.rename]
    rw [Tree.rename, Tree.obeys, Tree.obeys, hrule, h.obeysAll_renameAll hf ts]
    simp only [h.mem_rules hf]

theorem Renames.obeysAll_renameAll (hf : Function.Injective f) (h : Renames f g g') :
    ∀ ts : List Tree, Tree.obeysAll g' (Tree.renameAll f ts) = Tree.obeysAll g ts
  | [] => rfl
  | t :: ts => by
    rw [Tree.renameAll, Tree.obeysAll, Tree.obeysAll, h.obeys_rename hf t, h.obeysAll_renameAll hf ts]

end

mutual

/-- A tree of the renamed grammar for renamed words is a renamed tree. -/
theorem Renames.exists_tree (h : Renames f g g') :
    ∀ (t' : Tree) {words : List String}, t'.obeys g' = true → t'.leaves = words.map f → ∃ t, t' = Tree.rename f t
  | .word text, words, _, hl => by
    obtain ⟨b, -, rfl⟩ := List.map_eq_singleton_iff.1 hl.symm
    exact ⟨.word b, rfl⟩
  | .node label ts', words, ho, hl => by
    simp only [Tree.obeys, Bool.and_eq_true, decide_eq_true_eq] at ho
    obtain ⟨s, -, hs⟩ := (h _).1 ho.1
    obtain ⟨ts, rfl⟩ := h.exists_trees ts' ho.2 hl
    obtain rfl : label = f s.lhs := congrArg Rule.lhs hs
    exact ⟨.node s.lhs ts, rfl⟩

theorem Renames.exists_trees (h : Renames f g g') :
    ∀ (ts' : List Tree) {words : List String}, Tree.obeysAll g' ts' = true → Tree.leavesAll ts' = words.map f →
      ∃ ts, ts' = Tree.renameAll f ts
  | [], _, _, _ => ⟨[], rfl⟩
  | t' :: ts', words, ho, hl => by
    simp only [Tree.obeysAll, Bool.and_eq_true] at ho
    obtain ⟨u, v, -, hu, hv⟩ := List.map_eq_append_iff.1 hl.symm
    obtain ⟨t, rfl⟩ := h.exists_tree t' ho.1 hu.symm
    obtain ⟨ts, rfl⟩ := h.exists_trees ts' ho.2 hv.symm
    exact ⟨t :: ts, rfl⟩

end

/-- The derivation trees of the renamed words are the renamed derivation trees. -/
theorem Renames.parses_iff (hf : Function.Injective f) (h : Renames f g g') {t' : Tree} :
    g'.Parses (f a) (words.map f) t' ↔ ∃ t, g.Parses a words t ∧ t' = t.rename f := by
  constructor
  · rintro ⟨⟨ts', hroot⟩, ho, hl⟩
    obtain ⟨t, rfl⟩ := h.exists_tree t' ho hl
    rw [h.obeys_rename hf] at ho
    rw [Tree.leaves_rename] at hl
    refine ⟨t, ⟨?_, ho, List.map_injective_iff.2 hf hl⟩, rfl⟩
    cases t with
    | word text => cases hroot
    | node b ts =>
      simp only [Tree.rename, Tree.node.injEq] at hroot
      exact ⟨ts, by rw [hf hroot.1]⟩
  · rintro ⟨t, ⟨⟨ts, rfl⟩, ho, hl⟩, rfl⟩
    refine ⟨⟨Tree.renameAll f ts, rfl⟩, ?_, ?_⟩
    · rw [h.obeys_rename hf, ho]
    · rw [Tree.leaves_rename, hl]

theorem Renames.trees_perm (hf : Function.Injective f) (h : Renames f g g') {trees trees' : List Tree} (hn : trees.Nodup)
    (hn' : trees'.Nodup) (hm : ∀ t, t ∈ trees ↔ g.Parses a words t)
    (hm' : ∀ t, t ∈ trees' ↔ g'.Parses (f a) (words.map f) t) : trees'.Perm (trees.map (Tree.rename f)) := by
  have hn'' : (trees.map (Tree.rename f)).Nodup :=
    List.pairwise_map.2 (hn.imp fun hne he => hne (Tree.rename_inj hf he))
  refine (List.perm_ext_iff_of_nodup hn' hn'').2 fun t' => ?_
  rw [hm', h.parses_iff hf, List.mem_map]
  constructor
  · rintro ⟨t, ht, rfl⟩
    exact ⟨t, (hm t).2 ht, rfl⟩
  · rintro ⟨t, ht, rfl⟩
    exact ⟨t, (hm t).1 ht, rfl⟩

end Grammar

end ParseChart
