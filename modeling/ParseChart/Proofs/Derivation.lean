import ParseChart.Grammar
import ParseChart.Proofs.Item
/-!
# Derivation trees

A tree obeys a grammar if each inner node, with the roots of its children, is a rule and each leaf is a
terminal. `Grammar.Parses` says what a parser is to find: the trees with a given symbol at an inner root
whose leaves are the words. Each such tree is the tree of one complete item of each kind, `Tree.item`,
once the position of its first word is fixed, so items and trees determine each other.
-/

namespace ParseChart

open ChartItem

/-! ## Pieces of the input -/

/-- The words from position `i` up to position `j`. -/
def slice (words : List String) (i j : Nat) : List String := (words.drop i).take (j - i)

theorem length_slice {w : List String} {i j : Nat} (hj : j ≤ w.length) : (slice w i j).length = j - i := by
  simp only [slice, List.length_take, List.length_drop]
  omega

theorem slice_self (w : List String) (i : Nat) : slice w i i = [] := by simp [slice]

theorem slice_all (w : List String) : slice w 0 w.length = w := by simp [slice]

theorem slice_append {w : List String} {i j k : Nat} (hij : i ≤ j) (hjk : j ≤ k) :
    slice w i j ++ slice w j k = slice w i k := by
  have hlen : k - i = (j - i) + (k - j) := by omega
  have hdrop : w.drop j = (w.drop i).drop (j - i) := by rw [List.drop_drop]; congr 1; omega
  rw [slice, slice, slice, hlen, List.take_add, hdrop]

theorem slice_succ {w : List String} {i : Nat} {a : String} (h : w[i]? = some a) : slice w i (i + 1) = [a] := by
  obtain ⟨hi, rfl⟩ := List.getElem?_eq_some_iff.1 h
  rw [slice, List.drop_eq_getElem_cons hi, Nat.add_sub_cancel_left, List.take_succ_cons, List.take_zero]

theorem getElem?_of_slice {w : List String} {i j : Nat} {a : String} (h : slice w i j = [a]) : w[i]? = some a := by
  have := congrArg (·[0]?) h
  simp only [slice, List.getElem?_take] at this
  split at this <;> simp_all

theorem slice_eq_append {w u v : List String} {i j : Nat} (hj : j ≤ w.length) (h : u ++ v = slice w i j)
    (hij : i ≤ j) : i + u.length ≤ j ∧ u = slice w i (i + u.length) ∧ v = slice w (i + u.length) j := by
  have hlen : u.length + v.length = j - i := by rw [← List.length_append, h, length_slice hj]
  have hle : i + u.length ≤ j := by omega
  have hs := slice_append (w := w) (Nat.le_add_right i u.length) hle
  rw [← h] at hs
  obtain ⟨hu, hv⟩ := List.append_inj hs (by rw [length_slice (by omega)]; omega)
  exact ⟨hle, hu.symm, hv.symm⟩

/-! ## Trees -/

namespace Tree

def root : Tree → String
  | .word text => text
  | .node label _ => label

mutual

def leaves : Tree → List String
  | .word text => [text]
  | .node _ children => leavesAll children

def leavesAll : List Tree → List String
  | [] => []
  | t :: ts => leaves t ++ leavesAll ts

end

mutual

/-- Inner nodes are rules of the grammar, and leaves are terminals. -/
def obeys (g : Grammar) : Tree → Bool
  | .word text => g.isTerminal text
  | .node label children => decide (⟨label, children.map root⟩ ∈ g.rules) && obeysAll g children

def obeysAll (g : Grammar) : List Tree → Bool
  | [] => true
  | t :: ts => obeys g t && obeysAll g ts

end

theorem leavesAll_append (ts us : List Tree) : leavesAll (ts ++ us) = leavesAll ts ++ leavesAll us := by
  induction ts with
  | nil => rfl
  | cons t ts ih => simp [leavesAll, ih]

theorem obeysAll_append (g : Grammar) (ts us : List Tree) :
    obeysAll g (ts ++ us) = (obeysAll g ts && obeysAll g us) := by
  induction ts with
  | nil => simp [obeysAll]
  | cons t ts ih => simp [obeysAll, ih, Bool.and_assoc]

end Tree

/-- The derivation trees of the words from a symbol. -/
structure Grammar.Parses (g : Grammar) (symbol : String) (words : List String) (t : Tree) : Prop where
  root : ∃ children, t = .node symbol children
  obeys : t.obeys g = true
  leaves : t.leaves = words

theorem Grammar.parses_node {g : Grammar} {a b : String} {words : List String} {ts : List Tree} :
    g.Parses a words (.node b ts) ↔
      b = a ∧ ⟨a, ts.map Tree.root⟩ ∈ g.rules ∧ Tree.obeysAll g ts = true ∧ Tree.leavesAll ts = words := by
  constructor
  · rintro ⟨⟨us, h⟩, ho, hl⟩
    cases h
    simpa [Tree.obeys, Tree.leaves, and_assoc] using And.intro ho hl
  · rintro ⟨rfl, hr, ho, hl⟩
    exact ⟨⟨ts, rfl⟩, by simp [Tree.obeys, hr, ho], by simp [Tree.leaves, hl]⟩

/-! ## The items of a tree -/

/-- The item of a kind for a whole rule over its children. -/
def Kind.constituent (k : Kind) (r : Rule) (i j : Nat) (children : List Item) : Item :=
  match k with
  | .earley => .earley r r.rhs.length (.between i j) children
  | .cyk => .cyk r (.between i j) children

namespace Tree

mutual

/-- The complete item that has the tree over the words from position `i` on. -/
def item (k : Kind) (i : Nat) : Tree → Item
  | .word text => .word text
  | .node label children =>
    k.constituent ⟨label, children.map root⟩ i (i + (leavesAll children).length) (itemAll k i children)

def itemAll (k : Kind) (i : Nat) : List Tree → List Item
  | [] => []
  | t :: ts => item k i t :: itemAll k (i + t.leaves.length) ts

end

theorem itemAll_append (k : Kind) (i : Nat) (ts us : List Tree) :
    itemAll k i (ts ++ us) = itemAll k i ts ++ itemAll k (i + (leavesAll ts).length) us := by
  induction ts generalizing i with
  | nil => simp [itemAll, leavesAll]
  | cons t ts ih => simp [itemAll, leavesAll, ih, Nat.add_assoc]

mutual

theorem subtree?_item (k : Kind) (i : Nat) : ∀ t : Tree, (t.item k i).subtree? = some t
  | .word _ => rfl
  | .node label children => by
    cases k <;> simp [item, Kind.constituent, Item.subtree?, subtrees?_itemAll]

theorem subtrees?_itemAll (k : Kind) (i : Nat) : ∀ ts : List Tree, Item.subtrees? (itemAll k i ts) = some ts
  | [] => rfl
  | t :: ts => by simp [itemAll, Item.subtrees?, subtree?_item k i t, subtrees?_itemAll k _ ts]

end

mutual

theorem plain_item (k : Kind) (i : Nat) : ∀ t : Tree, (t.item k i).plain = true
  | .word _ => rfl
  | .node _ children => by
    cases k <;> simp [item, Kind.constituent, Item.plain, Span.plain_between, plainAll_itemAll]

theorem plainAll_itemAll (k : Kind) (i : Nat) : ∀ ts : List Tree, Item.plainAll (itemAll k i ts) = true
  | [] => rfl
  | t :: ts => by simp [itemAll, Item.plainAll, plain_item k i t, plainAll_itemAll k _ ts]

end

end Tree

theorem Grammar.Parses.tree?_item {g : Grammar} {a : String} {words : List String} {t : Tree}
    (h : g.Parses a words t) (k : Kind) (i : Nat) : (t.item k i).tree? = some t := by
  obtain ⟨ts, rfl⟩ := h.root
  have h := Tree.subtree?_item k i (.node a ts)
  cases k <;> exact h

theorem Grammar.Parses.item_over {g : Grammar} {a : String} {words : List String} {t : Tree}
    (h : g.Parses a words t) (k : Kind) (i : Nat) : Over (t.item k i) i (i + words.length) := by
  obtain ⟨ts, rfl⟩ := h.root
  obtain rfl : Tree.leavesAll ts = words := h.leaves
  cases k <;> exact ⟨⟨_, rfl, rfl⟩, rfl, rfl⟩

theorem Tree.item_inj {k : Kind} {i i' : Nat} {t t' : Tree} (h : t.item k i = t'.item k i') : t = t' := by
  have hsub := congrArg Item.subtree? h
  rw [Tree.subtree?_item, Tree.subtree?_item] at hsub
  exact Option.some.inj hsub

/-- Items that are made of their trees, in a list. -/
theorem Tree.exists_map_item {k : Kind} {i : Nat} {items : List Item}
    (h : ∀ x ∈ items, ∃ t, x.tree? = some t ∧ x = t.item k i) :
    ∃ trees, items.mapM Item.tree? = some trees ∧ items = trees.map (Tree.item k i) := by
  induction items with
  | nil => exact ⟨[], rfl, rfl⟩
  | cons x xs ih =>
    obtain ⟨t, hx, he⟩ := h x (by simp)
    obtain ⟨ts, hts, hes⟩ := ih fun y hy => h y (List.mem_cons_of_mem x hy)
    exact ⟨t :: ts, by simp [List.mapM_cons, hx, hts], by simp [← he, ← hes]⟩

/-- A list of the items of all trees for some words, each once, has these trees, each once. -/
theorem Grammar.trees_of_items {g : Grammar} {a : String} {words : List String} {k : Kind} {i : Nat}
    {items : List Item} (hn : items.Nodup) (hm : ∀ x, x ∈ items ↔ ∃ t, g.Parses a words t ∧ x = t.item k i) :
    ∃ trees, items.mapM Item.tree? = some trees ∧ trees.Nodup ∧ ∀ t, t ∈ trees ↔ g.Parses a words t := by
  -- Each item has a tree of which it is the item again, so nothing is lost or gained by passing to trees.
  have hback : ∀ x ∈ items, ∃ t, x.tree? = some t ∧ x = t.item k i := fun x hx => by
    obtain ⟨t, ht, rfl⟩ := (hm x).1 hx
    exact ⟨t, ht.tree?_item k i, rfl⟩
  obtain ⟨trees, ht, hitems⟩ := Tree.exists_map_item hback
  subst hitems
  refine ⟨trees, ht, (List.pairwise_map.1 hn).imp fun hne he => hne (congrArg _ he), fun t => ?_⟩
  constructor
  · intro hmem
    obtain ⟨u, hu, he⟩ := (hm _).1 (List.mem_map_of_mem hmem)
    exact Tree.item_inj he ▸ hu
  · intro hp
    obtain ⟨u, hu, he⟩ := List.mem_map.1 ((hm _).2 ⟨t, hp, rfl⟩)
    exact Tree.item_inj he ▸ hu

end ParseChart
