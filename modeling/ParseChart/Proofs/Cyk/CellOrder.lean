import ParseChart.Proofs.Chart.Cells
import ParseChart.Proofs.Cyk.Combination
import ParseChart.Proofs.Cyk.Orders
import ParseChart.Proofs.Grammar.Grouping
/-!
# The order of a cell

A parse combines the splits of a span one after the other, when both halves of each are done with. All that a
combination makes is new, since a constituent tells at which place it was split, and it comes to stand behind what
the splits before have made. So the constituents of a symbol stand in the order of their splits, then of their
left parts, then of their right parts, and a parser answers its trees in that order.
-/

namespace ParseChart

/-- The one element stands at a smaller place than the other. -/
def Precedes {α : Type} (xs : List α) (x y : α) : Prop := ∀ u v : Nat, xs[u]? = some x → xs[v]? = some y → u < v

theorem place_unique {α : Type} {xs : List α} (h : xs.Nodup) {u v : Nat} {x : α} (hu : xs[u]? = some x)
    (hv : xs[v]? = some x) : u = v :=
  (List.getElem?_inj (List.getElem?_eq_some_iff.1 hu).1 h).1 (hu.trans hv.symm)

theorem pairwise_precedes {α : Type} {xs : List α} (h : xs.Nodup) : xs.Pairwise (Precedes xs) := by
  rw [List.pairwise_iff_getElem]
  intro k l hk hl hkl u v hu hv
  rwa [place_unique h hu (List.getElem?_eq_getElem hk), place_unique h hv (List.getElem?_eq_getElem hl)]

/-- The number of words under the first child of the root. -/
def Tree.leftWidth : Tree → Nat
  | .node _ (t :: _) => t.leaves.length
  | _ => 0

theorem Derived.leftWidth_bounds {g : Grammar} {w : List String} {a : String} {i j : Nat} {t : Tree}
    (h : Derived g w a i j t) : 0 < t.leftWidth ∧ i + t.leftWidth ≤ j := by
  cases h with
  | word => exact ⟨Nat.one_pos, Nat.le_refl _⟩
  | pair _ ht hu =>
    have hlen := ht.length_leaves
    have hbt := ht.bounds
    have hbu := hu.bounds
    simp only [Tree.leftWidth]
    omega

namespace Cyk

open ChartM

variable {p : Cyk} {g : Grammar} {w : List String} {c : Chart Item} {i m j : Nat} {a : String} {x y left right : Item}
  {r : Rule} {done : List (Nat × Nat × Nat)}

/-! ## Where a constituent is made -/

/-- The item joins, at the split `m`, the item at place `u` on the left and the one at place `v` on the right. -/
def JoinsAt (c : Chart Item) (i j : Nat) (x : Item) : Nat × Nat × Nat → Prop
  | (m, u, v) => (i < m ∧ m < j) ∧ ∃ r left right lefts rights, x = .cyk r (.between i j) [left, right] ∧
      (c.itemsSpanning (.int i) (.int m) = .ok lefts ∧ lefts[u]? = some left) ∧
      c.itemsSpanning (.int m) (.int j) = .ok rights ∧ rights[v]? = some right

/-- The split comes first, or at one split the place on the left, or for one item on the left the place on the right. -/
def Earlier (c : Chart Item) (i j : Nat) (x y : Item) : Prop :=
  ∀ k l, JoinsAt c i j x k → JoinsAt c i j y l → Prod.Lex (· < ·) (Prod.Lex (· < ·) (· < ·)) k l

theorem joinsAt_iff (hj : j ≤ c.length) {u v : Nat} : JoinsAt c i j x (m, u, v) ↔ (i < m ∧ m < j) ∧
    ∃ r left right, x = .cyk r (.between i j) [left, right] ∧ (c.cell i m)[u]? = some left ∧
      (c.cell m j)[v]? = some right := by
  unfold JoinsAt
  apply and_congr_right
  rintro ⟨him, hmj⟩
  rw [Chart.itemsSpanning_int (by omega) (by omega), Chart.itemsSpanning_int (by omega) hj]
  constructor
  · rintro ⟨r, left, right, _, _, hx, ⟨⟨⟩, hu⟩, ⟨⟩, hv⟩
    exact ⟨r, left, right, hx, hu, hv⟩
  · rintro ⟨r, left, right, hx, hu, hv⟩
    exact ⟨r, left, right, _, _, hx, ⟨rfl, hu⟩, rfl, hv⟩

/-- The left part tells the split. -/
theorem JoinsAt.places {k : Nat × Nat × Nat} (hf : c.Filed) (hj : j ≤ c.length) (hl : left ∈ c.cell i m)
    (hk : JoinsAt c i j (.cyk r (.between i j) [left, right]) k) :
    k.1 = m ∧ (c.cell i m)[k.2.1]? = some left ∧ (c.cell m j)[k.2.2]? = some right := by
  obtain ⟨m', u, v⟩ := k
  obtain ⟨-, _, _, _, he, hu, hv⟩ := (joinsAt_iff hj).1 hk
  cases he
  obtain ⟨-, rfl⟩ := hf.cell_unique (List.mem_of_getElem? hu) hl
  exact ⟨rfl, hu, hv⟩

/-- What is made of two cells joins two of their items, at one place each. -/
theorem joinsAt_of_joined (hf : c.Filed) (him : i < m) (hmj : m < j) (hj : j ≤ c.length) (hx : x ∈ p.joined c i m j) :
    ∃! k, JoinsAt c i j x k := by
  obtain ⟨r, left, right, rfl, hl, hr⟩ := exists_of_joined hx
  have hl := List.mem_of_mem_filter hl
  obtain ⟨u, hu⟩ := List.getElem?_of_mem hl
  obtain ⟨v, hv⟩ := List.getElem?_of_mem (List.mem_of_mem_filter hr)
  refine ⟨(m, u, v), (joinsAt_iff hj).2 ⟨⟨him, hmj⟩, r, left, right, rfl, hu, hv⟩, ?_⟩
  rintro ⟨m', u', v'⟩ hk
  obtain ⟨hm, hu', hv'⟩ := hk.places hf hj hl
  exact Prod.ext hm (Prod.ext (place_unique hf.nodup_cell hu' hu) (place_unique hf.nodup_cell hv' hv))

section

variable {m' : Nat} {r' : Rule} {left' right' : Item} (hf : c.Filed) (hj : j ≤ c.length) (hl : left ∈ c.cell i m)
include hf hj hl

theorem earlier_of_splits (hl' : left' ∈ c.cell i m') (hlt : m < m') :
    Earlier c i j (.cyk r (.between i j) [left, right]) (.cyk r' (.between i j) [left', right']) := by
  intro k l hk hk'
  obtain ⟨hkm, -⟩ := hk.places hf hj hl
  obtain ⟨hlm, -⟩ := hk'.places hf hj hl'
  rw [Prod.lex_def]
  exact .inl (by omega)

theorem earlier_of_lefts (hl' : left' ∈ c.cell i m) (hlt : Precedes (c.cell i m) left left') :
    Earlier c i j (.cyk r (.between i j) [left, right]) (.cyk r' (.between i j) [left', right']) := by
  intro k l hk hk'
  obtain ⟨hkm, hku, -⟩ := hk.places hf hj hl
  obtain ⟨hlm, hlu, -⟩ := hk'.places hf hj hl'
  rw [Prod.lex_def, Prod.lex_def]
  exact .inr ⟨hkm.trans hlm.symm, .inl (hlt _ _ hku hlu)⟩

theorem earlier_of_rights (hlt : Precedes (c.cell m j) right right') :
    Earlier c i j (.cyk r (.between i j) [left, right]) (.cyk r' (.between i j) [left, right']) := by
  intro k l hk hk'
  obtain ⟨hkm, hku, hkv⟩ := hk.places hf hj hl
  obtain ⟨hlm, hlu, hlv⟩ := hk'.places hf hj hl
  rw [Prod.lex_def, Prod.lex_def]
  exact .inr ⟨hkm.trans hlm.symm, .inr ⟨place_unique hf.nodup_cell hku hlu, hlt _ _ hkv hlv⟩⟩

end

/-! ## One split -/

theorem exists_of_joins (hx : x ∈ p.joins i j left right) : ∃ r, x = .cyk r (.between i j) [left, right] := by
  obtain ⟨-, -, -, -, r, -, rfl⟩ := mem_joins.1 hx
  exact ⟨r, rfl⟩

theorem nodup_joins (left right : Item) : (p.joins i j left right).Nodup := by
  unfold joins
  split
  · rw [Grammar.binaryRulesFor_eq_filter]
    refine (p.grammar.nodup_rules.filter _).map ?_
    intro r s he
    cases he
    rfl
  · exact .nil

/-- Of two items one constituent of each symbol is made, since the symbols tell the rule. -/
theorem eq_of_joins (hx : x ∈ p.joins i j left right) (hy : y ∈ p.joins i j left right) (hxa : x.derives a = true)
    (hya : y.derives a = true) : x = y := by
  obtain ⟨r, s, hr, hs, ⟨lhs, rhs⟩, hq, rfl⟩ := mem_joins.1 hx
  obtain ⟨r', s', hr', hs', ⟨lhs', rhs'⟩, hq', rfl⟩ := mem_joins.1 hy
  cases hr.symm.trans hr'
  cases hs.symm.trans hs'
  obtain ⟨-, rfl, -⟩ := Grammar.mem_binaryRulesFor.1 hq
  obtain ⟨-, rfl, -⟩ := Grammar.mem_binaryRulesFor.1 hq'
  obtain rfl : lhs = a := beq_iff_eq.1 hxa
  obtain rfl : lhs' = lhs := beq_iff_eq.1 hya
  rfl

theorem nodup_joined (hf : c.Filed) : (p.joined c i m j).Nodup := by
  unfold joined
  rw [List.nodup_flatMap]
  refine ⟨fun left _ => ?_, (hf.nodup_cell.filter _).imp fun {left left'} hne x hx hx' => ?_⟩
  · rw [List.nodup_flatMap]
    refine ⟨fun right _ => nodup_joins left right, (hf.nodup_cell.filter _).imp fun {right right'} hne x hx hx' => ?_⟩
    obtain ⟨r, rfl⟩ := exists_of_joins hx
    obtain ⟨r', he⟩ := exists_of_joins hx'
    cases he
    exact hne rfl
  · obtain ⟨right, -, hx⟩ := List.mem_flatMap.1 hx
    obtain ⟨right', -, hx'⟩ := List.mem_flatMap.1 hx'
    obtain ⟨r, rfl⟩ := exists_of_joins hx
    obtain ⟨r', he⟩ := exists_of_joins hx'
    cases he
    exact hne rfl

/-- The loops over the left parts, the right parts and the rules make the constituents of a symbol in order. -/
theorem pairwise_joined (hf : c.Filed) (hj : j ≤ c.length) (a : String) :
    ((p.joined c i m j).filter (·.derives a)).Pairwise (Earlier c i j) := by
  have hlefts := (pairwise_precedes (hf.nodup_cell (i := i) (j := m))).filter fun x => x.kind? == some .cyk
  have hrights := (pairwise_precedes (hf.nodup_cell (i := m) (j := j))).filter fun x => x.kind? == some .cyk
  unfold joined
  simp only [List.filter_flatMap, List.pairwise_flatMap]
  refine ⟨fun left hl => ⟨fun right _ => ?_, hrights.imp fun {right right'} hlt x hx y hy => ?_⟩,
    hlefts.imp_of_mem fun {left left'} hl hl' hlt x hx y hy => ?_⟩
  · refine ((nodup_joins left right).filter _).imp_of_mem fun {x y} hx hy hne => absurd ?_ hne
    obtain ⟨hx, hxa⟩ := List.mem_filter.1 hx
    obtain ⟨hy, hya⟩ := List.mem_filter.1 hy
    exact eq_of_joins hx hy hxa hya
  · obtain ⟨r, rfl⟩ := exists_of_joins (List.mem_of_mem_filter hx)
    obtain ⟨r', rfl⟩ := exists_of_joins (List.mem_of_mem_filter hy)
    exact earlier_of_rights hf hj (List.mem_of_mem_filter hl) hlt
  · obtain ⟨right, -, hx⟩ := List.mem_flatMap.1 hx
    obtain ⟨right', -, hy⟩ := List.mem_flatMap.1 hy
    obtain ⟨r, rfl⟩ := exists_of_joins (List.mem_of_mem_filter hx)
    obtain ⟨r', rfl⟩ := exists_of_joins (List.mem_of_mem_filter hy)
    exact earlier_of_lefts hf hj (List.mem_of_mem_filter hl) (List.mem_of_mem_filter hl') hlt

/-! ## The splits of a span -/

/-- What is made from `i` to `j` by some splits, one after the other. -/
def madeBy (p : Cyk) (c : Chart Item) (done : List (Nat × Nat × Nat)) (i j : Nat) : List Item :=
  (done.filter fun s => s.1 = i ∧ s.2.2 = j).flatMap fun s => p.joined c s.1 s.2.1 s.2.2

theorem mem_madeBy : x ∈ p.madeBy c done i j ↔ ∃ m, (i, m, j) ∈ done ∧ x ∈ p.joined c i m j := by
  simp only [madeBy, List.mem_flatMap, List.mem_filter, decide_eq_true_eq]
  constructor
  · rintro ⟨⟨i', m, j'⟩, ⟨hs, rfl, rfl⟩, hx⟩
    exact ⟨m, hs, hx⟩
  · rintro ⟨m, hs, hx⟩
    exact ⟨(i, m, j), ⟨hs, rfl, rfl⟩, hx⟩

theorem split_unique (hf : c.Filed) {m' : Nat} (hx : x ∈ p.joined c i m j) (hx' : x ∈ p.joined c i m' j) : m = m' := by
  obtain ⟨r, left, right, rfl, hl, -⟩ := exists_of_joined hx
  obtain ⟨r', left', right', he, hl', -⟩ := exists_of_joined hx'
  cases he
  exact (hf.cell_unique (List.mem_of_mem_filter hl) (List.mem_of_mem_filter hl')).2

/-- The constituents of a symbol that the splits of a schedule make stand in order. -/
theorem pairwise_madeBy (hf : c.Filed) (hj : j ≤ c.length) (hdone : done.Pairwise Before) (a : String) :
    ((p.madeBy c done i j).filter (·.derives a)).Pairwise (Earlier c i j) := by
  unfold madeBy
  rw [List.filter_flatMap, List.pairwise_flatMap]
  constructor
  · rintro ⟨i', m, j'⟩ hs
    obtain ⟨-, rfl, rfl⟩ := by simpa using hs
    exact pairwise_joined hf hj a
  · refine (hdone.filter _).imp_of_mem fun {s t} hs ht hst x hx y hy => ?_
    obtain ⟨i', m, j'⟩ := s
    obtain ⟨i'', m', j''⟩ := t
    obtain ⟨-, rfl, rfl⟩ := by simpa using hs
    obtain ⟨-, rfl, rfl⟩ := by simpa using ht
    obtain ⟨r, left, right, rfl, hleft, -⟩ := exists_of_joined (List.mem_of_mem_filter hx)
    obtain ⟨r', left', right', rfl, hleft', -⟩ := exists_of_joined (List.mem_of_mem_filter hy)
    refine earlier_of_splits hf hj (List.mem_of_mem_filter hleft) (List.mem_of_mem_filter hleft') ?_
    -- Of one span, the splits differ only in the place.
    rcases hst with hst | ⟨-, hst | ⟨-, hst⟩⟩
    · exact absurd hst (Nat.lt_irrefl _)
    · exact absurd hst (Nat.lt_irrefl _)
    · exact hst

/-! ## The run -/

/-- The table after some splits: for each symbol, a cell over two words or more holds what these have made of the other
cells, in order. -/
structure Ordered (p : Cyk) (w : List String) (done : List (Nat × Nat × Nat)) (c : Chart Item) : Prop where
  table : Table p.grammar w c
  cells : ∀ i j a, i + 2 ≤ j → (c.cell i j).filter (·.derives a) = (p.madeBy c done i j).filter (·.derives a)

theorem Table.integral (h : Table g w c) : c.Integral where
  mixed := h.mixed
  distinct := h.filed.distinct_of_plain h.plain
  between x hx := by
    obtain ⟨a, i, j, t, ht, rfl⟩ := h.derived x hx
    exact ⟨i, j, ht.item_over .cyk⟩

theorem Table.derives_of_mem (h : Table g w c) (hx : x ∈ c) : x.isOf .cyk = true ∧ ∃ b, x.derives b = true := by
  obtain ⟨b, i, j, t, ht, rfl⟩ := h.derived x hx
  obtain ⟨ts, rfl⟩ := ht.parses.root
  exact ⟨rfl, b, beq_self_eq_true b⟩

theorem filter_isConstituentOf {xs : List Item} (h : ∀ x ∈ xs, x.isOf .cyk = true) (a : String) :
    xs.filter (·.isConstituentOf a) = xs.filter (·.derives a) := by
  apply List.filter_congr
  intro x hx
  rw [Item.isConstituentOf, h x hx, Bool.true_and]

theorem Table.isOf_of_cell (h : Table g w c) : ∀ x ∈ c.cell i j, x.isOf .cyk = true := fun _ hx =>
  (h.derives_of_mem (h.filed.mem_of_cell hx)).1

/-- Nothing that a split makes is there before, since only the same split makes it. -/
theorem Ordered.not_mem_of_joined (h : Ordered p w done c) (him : i < m) (hmj : m < j) (hnot : (i, m, j) ∉ done)
    (hx : x ∈ p.joined c i m j) : x ∉ c := by
  intro hxc
  obtain ⟨-, b, hb⟩ := h.table.derives_of_mem hxc
  have hcell := List.mem_filter.2 ⟨((over_of_joined hx).2.mem_cell h.table.filed i j).2 ⟨hxc, rfl, rfl⟩, hb⟩
  rw [h.cells i j b (by omega)] at hcell
  obtain ⟨m', hdone, hx'⟩ := mem_madeBy.1 (List.mem_of_mem_filter hcell)
  obtain rfl := split_unique h.table.filed hx hx'
  exact hnot hdone

theorem Ordered.newOf_joined (h : Ordered p w done c) (him : i < m) (hmj : m < j) (hnot : (i, m, j) ∉ done) :
    c.newOf (p.joined c i m j) = p.joined c i m j := by
  refine h.table.filed.newOf_eq_self h.table.plain (nodup_joined h.table.filed) fun x hx => ?_
  refine ⟨?_, h.not_mem_of_joined him hmj hnot hx⟩
  obtain ⟨a, a₁, a₂, t, u, hr, ht, hu, -, -, rfl⟩ := h.table.mem_joined.1 hx
  exact placed_of_derived (.pair hr ht hu) h.table.length

/-- The splits before have read no cell that is as wide, so what they have made stays the same. -/
theorem madeBy_concat (hc : c.Mixed) (him : i < m) (hmj : m < j) (hbefore : ∀ s ∈ done, Before s (i, m, j))
    (hdone : ∀ s ∈ done, s.1 < s.2.1 ∧ s.2.1 < s.2.2) (k l : Nat) :
    p.madeBy (c.putAll (p.joined c i m j)) (done ++ [(i, m, j)]) k l =
      p.madeBy c done k l ++ if i = k ∧ j = l then p.joined c i m j else [] := by
  have hread : ∀ s ∈ done ++ [(i, m, j)],
      p.joined (c.putAll (p.joined c i m j)) s.1 s.2.1 s.2.2 = p.joined c s.1 s.2.1 s.2.2 := by
    intro s hs
    rcases List.mem_append.1 hs with hs | hs
    · have hb := hbefore s hs
      obtain ⟨hl, hr⟩ := hdone s hs
      simp only [Before] at hb
      exact joined_putAll_of_ne hc (fun x => over_of_joined) (by omega) (by omega)
    · obtain rfl := List.mem_singleton.1 hs
      exact joined_putAll hc him hmj
  unfold madeBy
  rw [List.flatMap_congr fun s hs => hread s (List.mem_of_mem_filter hs), List.filter_append, List.flatMap_append]
  congr 1
  by_cases hkl : i = k ∧ j = l <;> simp [hkl]

/-- What one more split makes comes behind what those before it have made. -/
theorem Ordered.combine (h : Ordered p w done c) (him : i < m) (hmj : m < j)
    (hbefore : ∀ s ∈ done, Before s (i, m, j)) (hdone : ∀ s ∈ done, s.1 < s.2.1 ∧ s.2.1 < s.2.2) :
    Ordered p w (done ++ [(i, m, j)]) (c.putAll (p.joined c i m j)) := by
  have hnew := h.newOf_joined him hmj fun hs => (hbefore _ hs).ne rfl
  obtain ⟨htable, -⟩ := h.table.putAll_joined i m j
  refine ⟨htable, fun k l a hkl => ?_⟩
  rw [madeBy_concat h.table.mixed him hmj hbefore hdone]
  by_cases he : i = k ∧ j = l
  · obtain ⟨rfl, rfl⟩ := he
    have hall := h.table.integral.constituents_putAll (fun x (hx : x ∈ p.joined c i m j) => constituent_of_joined hx) a
    rw [hnew, filter_isConstituentOf htable.isOf_of_cell, filter_isConstituentOf h.table.isOf_of_cell,
      filter_isConstituentOf fun x hx => isOf_of_joined hx .cyk] at hall
    rw [hall, if_pos ⟨rfl, rfl⟩, List.filter_append, h.cells i j a hkl]
  · rw [h.table.mixed.cell_putAll_of_ne (fun x => over_of_joined) he, if_neg he, List.append_nil, h.cells k l a hkl]

/-- A parse makes nothing that is there already, and orders the cells. -/
theorem fill_ordered (p : Cyk) (w : List String) :
    ∃ c, InsertingNew (p.fill w) (.empty w.length) () c ∧ Ordered p w (schedule w.length) c := by
  obtain ⟨c, hlex, htable, -, hnarrow⟩ := lexicalAll p w
  have hstart : Ordered p w [] c := by
    refine ⟨htable, fun i j a hij => ?_⟩
    -- Before the first split there is nothing over two words.
    rw [List.filter_eq_nil_iff.2, madeBy, List.filter_nil, List.flatMap_nil, List.filter_nil]
    intro x hx
    obtain ⟨k, -, hover⟩ := hnarrow x (htable.filed.mem_of_cell hx)
    obtain ⟨-, rfl, rfl⟩ := (hover.mem_cell htable.filed i j).1 hx
    omega
  obtain ⟨c', hcomb, h⟩ := insertingNew_forM (fun (i, m, j) => p.combine i m j) (schedule w.length) (Ordered p w)
    (fun done s rest c hs hc => by
      obtain ⟨i, m, j⟩ := s
      have hmem : ∀ s ∈ done ++ (i, m, j) :: rest, s.1 < s.2.1 ∧ s.2.1 < s.2.2 ∧ s.2.2 ≤ w.length := fun s h =>
        mem_schedule.1 (hs ▸ h)
      have hordered := ordered_schedule w.length
      rw [hs, List.pairwise_append] at hordered
      have hbefore : ∀ s ∈ done, Before s (i, m, j) := fun s h => hordered.2.2 s h (i, m, j) (by simp)
      obtain ⟨him, hmj, hj⟩ := hmem (i, m, j) (by simp)
      refine ⟨_, ⟨_, inserting_combine hc.table.mixed him hmj (hc.table.length ▸ hj), ?_⟩, hc.combine him hmj hbefore ?_⟩
      · exact Chart.isNew_of_newOf (hc.newOf_joined him hmj fun hs => (hbefore _ hs).ne rfl)
      · exact fun s h => ⟨(hmem s (by simp [h])).1, (hmem s (by simp [h])).2.1⟩) hstart
  exact ⟨c', hlex.bind (hcomb.bind (Inserting.new ((inserting_chart c').bind (inserting_tellAs _ rfl rfl c')))), h⟩

theorem Ordered.exists_joinsAt (h : Ordered p w (schedule w.length) c) (hij : i + 2 ≤ j) (hj : j ≤ w.length)
    (hx : x ∈ (c.cell i j).filter (·.derives a)) : ∃! k, JoinsAt c i j x k := by
  rw [h.cells i j a hij] at hx
  obtain ⟨m, hs, hx⟩ := mem_madeBy.1 (List.mem_of_mem_filter hx)
  obtain ⟨him, hmj, -⟩ := mem_schedule.1 hs
  exact joinsAt_of_joined h.table.filed him hmj (h.table.length ▸ hj) hx

theorem Ordered.pairwise_cell (h : Ordered p w (schedule w.length) c) (hij : i + 2 ≤ j) (hj : j ≤ w.length) (a : String) :
    ((c.cell i j).filter (·.derives a)).Pairwise (Earlier c i j) := by
  rw [h.cells i j a hij]
  exact pairwise_madeBy h.table.filed (h.table.length ▸ hj) (ordered_schedule w.length) a

/-! ## Trees -/

theorem JoinsAt.leftWidth {t : Tree} {k : Nat × Nat × Nat} (hf : c.Filed) (hj : j ≤ c.length) (ht : Derived g w a i j t)
    (hk : JoinsAt c i j (t.item .cyk i) k) : k.1 = i + t.leftWidth := by
  obtain ⟨m, u, v⟩ := k
  obtain ⟨-, r, left, right, he, hu, -⟩ := (joinsAt_iff hj).1 hk
  cases ht with
  | word => cases he
  | pair _ hleft hright =>
    rw [item_pair hleft hright] at he
    cases he
    obtain ⟨-, -, rfl⟩ := ((hleft.item_over .cyk).mem_cell hf i m).1 (List.mem_of_getElem? hu)
    exact hleft.length_leaves.symm

/-- The split of a constituent shows in its tree. -/
theorem Ordered.joinsAt_item {t : Tree} (h : Ordered p w (schedule w.length) c) (hfilled : Filled p.grammar w c)
    (hij : i + 2 ≤ j) (ht : Derived p.grammar w a i j t) :
    ∃ k, JoinsAt c i j (t.item .cyk i) k ∧ k.1 = i + t.leftWidth := by
  have hcell := List.mem_filter.2 ⟨hfilled.mem_cell_iff.2 ⟨a, t, ht, rfl⟩, (derives_item ht i).2 rfl⟩
  obtain ⟨k, hk, -⟩ := h.exists_joinsAt hij ht.bounds.2 hcell
  exact ⟨k, hk, hk.leftWidth h.table.filed (h.table.length ▸ ht.bounds.2) ht⟩

theorem Filled.exists_map_item (h : Filled g w c) (i j : Nat) (a : String) :
    ∃ trees, ((c.cell i j).filter (·.derives a)).mapM Item.tree? = some trees ∧
      (c.cell i j).filter (·.derives a) = trees.map (Tree.item .cyk i) ∧ ∀ t ∈ trees, Derived g w a i j t := by
  have hderived : ∀ x ∈ (c.cell i j).filter (·.derives a), ∃ t, Derived g w a i j t ∧ x = t.item .cyk i := by
    intro x hx
    obtain ⟨hx, ha⟩ := List.mem_filter.1 hx
    obtain ⟨b, t, ht, rfl⟩ := h.mem_cell_iff.1 hx
    obtain rfl := (derives_item ht i).1 ha
    exact ⟨t, ht, rfl⟩
  obtain ⟨trees, htrees, hitems⟩ := Tree.exists_map_item fun x hx => by
    obtain ⟨t, ht, rfl⟩ := hderived x hx
    exact ⟨t, ht.parses.tree?_item .cyk i, rfl⟩
  refine ⟨trees, htrees, hitems, fun t ht => ?_⟩
  obtain ⟨u, hu, he⟩ := hderived _ (hitems ▸ List.mem_map_of_mem ht)
  exact Tree.item_inj he ▸ hu

theorem Ordered.pairwise_leftWidth {trees : List Tree} (h : Ordered p w (schedule w.length) c)
    (hfilled : Filled p.grammar w c) (hj : j ≤ w.length)
    (hitems : (c.cell i j).filter (·.derives a) = trees.map (Tree.item .cyk i))
    (htrees : ∀ t ∈ trees, Derived p.grammar w a i j t) : trees.Pairwise fun t u => t.leftWidth ≤ u.leftWidth := by
  by_cases hij : i + 2 ≤ j
  · have hpair := h.pairwise_cell hij hj a
    rw [hitems, List.pairwise_map] at hpair
    refine hpair.imp_of_mem fun {t u} ht hu htu => ?_
    obtain ⟨k, hk, htk⟩ := h.joinsAt_item hfilled hij (htrees t ht)
    obtain ⟨l, hl, hul⟩ := h.joinsAt_item hfilled hij (htrees u hu)
    rcases (Prod.lex_def ..).1 (htu k l hk hl) with hlt | ⟨heq, -⟩ <;> omega
  · -- One word leaves no choice.
    refine List.pairwise_of_forall_mem_list fun t ht u hu => ?_
    have hwidth := (htrees t ht).leftWidth_bounds
    have hwidth' := (htrees u hu).leftWidth_bounds
    omega

/-- In the chart of a parse, the constituents of a symbol over two words or more each join two items of the narrower cells
at one split. They stand there strictly in the order of their split, then of the place of the left item in its cell, then
of that of the right one. The trees of the parse are those of the last cell in its order, so they come by the number of
words on the left of the root. -/
theorem cells_in_order (hg : g.isNormalForm = true) (start : Option String) (w : List String) :
    ∃ p s, ofGrammar g start = .ok p ∧ p.parse w = (.ok (), s) ∧
      (∀ i j : Nat, i + 2 ≤ j → j ≤ w.length → ∃ items, s.chart.itemsSpanning (.int i) (.int j) = .ok items ∧ ∀ a,
        (∀ x ∈ items.filter (·.derives a), ∃! k, JoinsAt s.chart i j x k) ∧
        (items.filter (·.derives a)).Pairwise (Earlier s.chart i j)) ∧
      ∃ items trees, s.chart.itemsSpanning (.int 0) (.int w.length) = .ok items ∧ (p.parseTrees w).1 = .ok trees ∧
        (items.filter (·.derives p.start)).mapM Item.tree? = some trees ∧
        trees.Pairwise fun t u => t.leftWidth ≤ u.leftWidth := by
  obtain ⟨c, hnew, h⟩ := fill_ordered ⟨g, start.getD g.start⟩ w
  have hc := hnew.yields
  obtain ⟨c', hc', hfilled⟩ := fill_yields ⟨g, start.getD g.start⟩ w
  obtain ⟨-, rfl⟩ := hc.unique hc'
  obtain ⟨s, hs, rfl⟩ := hc.onEmpty Chart.logName
  refine ⟨_, s, ofGrammar_eq_ok.2 ⟨hg, rfl⟩, hs, fun i j hij hj => ?_, ?_⟩
  · have hitems := Chart.itemsSpanning_int (i := i) (by omega) (hfilled.length ▸ hj)
    exact ⟨_, hitems, fun a => ⟨fun x => h.exists_joinsAt hij hj, h.pairwise_cell hij hj a⟩⟩
  · have hitems := Chart.itemsSpanning_int (c := s.chart) (Nat.zero_le _) (Nat.le_of_eq hfilled.length.symm)
    obtain ⟨trees, htrees, hmap, hderived⟩ := hfilled.exists_map_item 0 w.length (start.getD g.start)
    have hanswer : s.chart.parseTrees (start.getD g.start) .cyk = .ok trees := by
      apply Chart.parseTrees_eq_ok
      rw [← Chart.parses, hfilled.parses_eq, htrees]
    exact ⟨_, trees, hitems, (hc.bind (yields_parseTrees hanswer)).answers _, htrees,
      h.pairwise_leftWidth hfilled (Nat.le_refl _) hmap hderived⟩

/-- Of the five trees of four words, two have one word on the left, one has two and two have three. -/
theorem cells_in_order_doubling :
    Grammar.doubling.isNormalForm = true ∧
      ∃ p s, ofGrammar .doubling none = .ok p ∧ p.parse ["a", "a", "a", "a"] = (.ok (), s) ∧
        (∃ items, s.chart.itemsSpanning (.int 0) (.int 4) = .ok items ∧
          (∀ x ∈ items.filter (·.derives "S"), ∃! k, JoinsAt s.chart 0 4 x k) ∧
          (items.filter (·.derives "S")).Pairwise (Earlier s.chart 0 4)) ∧
        ∃ trees, (p.parseTrees ["a", "a", "a", "a"]).1 = .ok trees ∧ trees.map Tree.leftWidth = [1, 1, 2, 3, 3] := by
  obtain ⟨p, s, hp, hs, hcells, -, trees, -, htrees, -⟩ :=
    cells_in_order Grammar.isNormalForm_doubling none ["a", "a", "a", "a"]
  obtain ⟨items, hitems, hordered⟩ := hcells 0 4 (by decide) (by decide)
  refine ⟨Grammar.isNormalForm_doubling, p, s, hp, hs, ⟨items, hitems, hordered "S"⟩, trees, htrees, ?_⟩
  obtain ⟨-, rfl⟩ := ofGrammar_eq_ok.1 hp
  have hwidths : ((parseTrees ⟨.doubling, "S"⟩ ["a", "a", "a", "a"]).1.toOption.map fun ts => ts.map Tree.leftWidth) =
      some [1, 1, 2, 3, 3] := by decide +kernel
  have htrees : (parseTrees ⟨.doubling, "S"⟩ ["a", "a", "a", "a"]).1 = .ok trees := htrees
  rw [htrees] at hwidths
  exact Option.some.inj hwidths

end Cyk

end ParseChart
