import Mathlib.Data.List.Nodup
import ParseChart.Proofs.Chart.Insertions
import ParseChart.Proofs.Chart.Parses
import ParseChart.Proofs.Cyk.Derived
import ParseChart.Proofs.Cyk.Schedule
import ParseChart.Proofs.Grammar.Grouping
/-!
# The table of a tabular parse

What one combination does on a chart of parsers' items, and what combinations in the order of a schedule
build from the constituents of one word: the items of all derivation trees. `Table` is kept throughout,
and once all splits are final nothing is missing.
-/

namespace ParseChart

open ChartItem ChartM

/-- The constituents from `i` to `j`. -/
def Chart.constituents (c : Chart Item) (i j : Nat) : List Item := (c.cell i j).filter fun x => x.kind? == some .cyk

namespace Cyk

variable {p : Cyk} {g : Grammar} {w : List String} {c : Chart Item} {i m j : Nat} {a : String} {t u : Tree} {x y : Item}

/-! ## One combination -/

theorem inserting_constituents (h : c.Mixed) (hij : i ≤ j) (hj : j ≤ c.length) :
    Inserting (constituents i j) c (c.constituents i j) [] c := by
  have hcomplete : ((c.cell i j).filter fun x => x.isComplete? == some true).filter
      (fun x => x.kind?.map (· == .cyk) == some true) = c.constituents i j := by
    rw [List.filter_filter, Chart.constituents]
    apply List.filter_congr
    intro x _
    cases x <;> simp [Item.kind?, Item.isComplete?]
  refine (inserting_completeItemsSpanning hij hj (h.completeItemsSpanning_int hij hj)).bind (inserting_ofExcept ?_ c)
  rw [Chart.select_eq_ok, hcomplete]
  intro x hx
  rw [Option.isSome_map]
  exact h.kinds x (h.filed.mem_of_cell (List.mem_filter.1 hx).1)

/-- The constituents made of those left and right of the split `m`. -/
def joined (p : Cyk) (c : Chart Item) (i m j : Nat) : List Item :=
  (c.constituents i m).flatMap fun left => (c.constituents m j).flatMap (p.joins i j left)

theorem mem_joins {left right : Item} : x ∈ p.joins i j left right ↔
    ∃ r s, left.rule? = some r ∧ right.rule? = some s ∧
      ∃ q ∈ p.grammar.binaryRulesFor r.lhs s.lhs, x = .cyk q (.between i j) [left, right] := by
  unfold joins
  split
  · rename_i r s hr hs
    simp [hr, hs, eq_comm]
  · rename_i h
    simp only [List.not_mem_nil, false_iff]
    rintro ⟨r, s, hr, hs, -⟩
    exact h r s hr hs

theorem exists_of_joined (hx : x ∈ p.joined c i m j) :
    ∃ r left right, x = .cyk r (.between i j) [left, right] ∧ left ∈ c.constituents i m ∧
      right ∈ c.constituents m j := by
  simp only [joined, List.mem_flatMap] at hx
  obtain ⟨left, hl, right, hr, hx⟩ := hx
  obtain ⟨-, -, -, -, q, -, rfl⟩ := mem_joins.1 hx
  exact ⟨q, left, right, rfl, hl, hr⟩

theorem cyk_of_joined (hf : c.Filed) (hc : c.Plain) (hx : x ∈ p.joined c i m j) :
    ∃ r cs, x = .cyk r (.between i j) cs ∧ Item.plainAll cs = true := by
  obtain ⟨r, left, right, rfl, hl, hr⟩ := exists_of_joined hx
  have hpl := hc _ (hf.mem_of_cell (List.mem_filter.1 hl).1)
  have hpr := hc _ (hf.mem_of_cell (List.mem_filter.1 hr).1)
  exact ⟨r, _, rfl, by simp [Item.plainAll, hpl, hpr]⟩

theorem over_cyk {r : Rule} {cs : List Item} : Over (Item.cyk r (.between i j) cs) i j := ⟨⟨_, rfl, rfl⟩, rfl, rfl⟩

theorem placed_of_joined (hij : i ≤ j) (hj : j ≤ c.length) : ∀ x ∈ p.joined c i m j, ∃ q, c.place x = .ok q := by
  intro x hx
  obtain ⟨r, left, right, rfl, -⟩ := exists_of_joined hx
  obtain ⟨id, hp⟩ := over_cyk.place c hij hj
  exact ⟨_, hp⟩

theorem inserting_combine (h : c.Mixed) (him : i < m) (hmj : m < j) (hj : j ≤ c.length) :
    Inserting (p.combine i m j) c () (c.attempts (p.joined c i m j)) (c.putAll (p.joined c i m j)) := by
  refine (inserting_constituents h (by omega) (by omega)).bind ((inserting_constituents h (by omega) hj).bind ?_)
  exact (inserting_offer (placed_of_joined (by omega) hj)).bind_nil (inserting_pure () _)

theorem combine_yields (h : c.Mixed) (him : i < m) (hmj : m < j) (hj : j ≤ c.length) :
    Yields (p.combine i m j) c () (c.putAll (p.joined c i m j)) := (inserting_combine h him hmj hj).yields

/-! ## The table -/

/-- The items are of derivation trees. -/
structure Table (g : Grammar) (w : List String) (c : Chart Item) : Prop where
  filed : c.Filed
  length : c.length = w.length
  derived : ∀ x ∈ c, ∃ a i j t, Derived g w a i j t ∧ x = t.item .cyk i

/-- Each two trees on the chart that meet at `m` are there as one under each rule for them. -/
def Joined (g : Grammar) (w : List String) (c : Chart Item) (i m j : Nat) : Prop :=
  ∀ {a a₁ a₂ t u}, ⟨a, [a₁, a₂]⟩ ∈ g.rules → Derived g w a₁ i m t → Derived g w a₂ m j u →
    t.item .cyk i ∈ c → u.item .cyk m ∈ c → (Tree.node a [t, u]).item .cyk i ∈ c

theorem Table.plain (h : Table g w c) : c.Plain := fun x hx => by
  obtain ⟨a, i, j, t, -, rfl⟩ := h.derived x hx
  exact Tree.plain_item .cyk i t

theorem Table.mixed (h : Table g w c) : c.Mixed := h.filed.mixed h.plain

theorem placed_of_derived (ht : Derived g w a i j t) (hc : c.length = w.length) :
    (t.item .cyk i).plain = true ∧ ∃ q, c.place (t.item .cyk i) = .ok q := by
  have hb := ht.bounds
  obtain ⟨id, hp⟩ := (ht.item_over .cyk).place c (by omega) (by omega)
  exact ⟨Tree.plain_item .cyk i t, _, hp⟩

/-- Items of derivation trees are all added unless they are there. -/
theorem Table.putAll (h : Table g w c) (xs : List Item)
    (hxs : ∀ x ∈ xs, ∃ a i j t, Derived g w a i j t ∧ x = t.item .cyk i) :
    Table g w (c.putAll xs) ∧ ∀ x, x ∈ c.putAll xs ↔ x ∈ c ∨ x ∈ xs := by
  have hmem : ∀ x, x ∈ c.putAll xs ↔ x ∈ c ∨ x ∈ xs := fun x => h.filed.mem_putAll_iff h.plain fun x hx => by
    obtain ⟨a, i, j, t, ht, rfl⟩ := hxs x hx
    exact placed_of_derived ht h.length
  refine ⟨⟨h.filed.putAll xs, (Chart.length_putAll c xs).trans h.length, fun x hx => ?_⟩, hmem⟩
  rcases (hmem x).1 hx with hx | hx
  · exact h.derived x hx
  · exact hxs x hx

theorem Table.mem_constituents (h : Table g w c) :
    x ∈ c.constituents i j ↔ ∃ a t, Derived g w a i j t ∧ x = t.item .cyk i ∧ x ∈ c := by
  unfold Chart.constituents
  rw [List.mem_filter]
  constructor
  · rintro ⟨hx, -⟩
    have hc := h.filed.mem_of_cell hx
    obtain ⟨a, k, l, t, ht, rfl⟩ := h.derived x hc
    obtain ⟨-, rfl, rfl⟩ := ((ht.item_over .cyk).mem_cell h.filed i j).1 hx
    exact ⟨a, t, ht, rfl, hc⟩
  · rintro ⟨a, t, ht, rfl, hc⟩
    refine ⟨((ht.item_over .cyk).mem_cell h.filed i j).2 ⟨hc, rfl, rfl⟩, ?_⟩
    obtain ⟨ts, rfl⟩ := ht.parses.root
    rfl

theorem item_pair {b : String} (ht : Derived g w a i m t) (hu : Derived g w b m j u) (s : String) :
    (Tree.node s [t, u]).item .cyk i = .cyk ⟨s, [a, b]⟩ (.between i j) [t.item .cyk i, u.item .cyk m] := by
  have hlen : ((i + (t.leaves.length + u.leaves.length) : Nat) : Int) = j := by
    rw [← Nat.add_assoc, ht.length_leaves, hu.length_leaves]
  simp only [Tree.item, Tree.itemAll, Kind.constituent, Tree.leavesAll, List.append_nil, List.length_append,
    List.map_cons, List.map_nil, ht.root, hu.root, ht.length_leaves, hlen]

theorem rule?_item (ht : Derived g w a i j t) (k : Nat) : ∃ r, (t.item .cyk k).rule? = some r ∧ r.lhs = a := by
  obtain ⟨ts, rfl⟩ := ht.parses.root
  exact ⟨_, rfl, rfl⟩

theorem Table.mem_joined (h : Table p.grammar w c) : x ∈ p.joined c i m j ↔
    ∃ a a₁ a₂ t u, ⟨a, [a₁, a₂]⟩ ∈ p.grammar.rules ∧ Derived p.grammar w a₁ i m t ∧ Derived p.grammar w a₂ m j u ∧
      t.item .cyk i ∈ c ∧ u.item .cyk m ∈ c ∧ x = (Tree.node a [t, u]).item .cyk i := by
  simp only [joined, List.mem_flatMap]
  constructor
  · rintro ⟨left, hl, right, hr, hx⟩
    obtain ⟨a₁, t, ht, rfl, htc⟩ := h.mem_constituents.1 hl
    obtain ⟨a₂, u, hu, rfl, huc⟩ := h.mem_constituents.1 hr
    obtain ⟨r, s, hrt, hsu, q, hq, rfl⟩ := mem_joins.1 hx
    obtain ⟨r', hr', rfl⟩ := rule?_item ht i
    obtain ⟨s', hs', rfl⟩ := rule?_item hu m
    cases hrt.symm.trans hr'
    cases hsu.symm.trans hs'
    obtain ⟨hqr, hrhs, -, -⟩ := Grammar.mem_binaryRulesFor.1 hq
    obtain ⟨lhs, rhs⟩ := q
    cases hrhs
    exact ⟨lhs, _, _, t, u, hqr, ht, hu, htc, huc, (item_pair ht hu lhs).symm⟩
  · rintro ⟨a, a₁, a₂, t, u, hr, ht, hu, htc, huc, rfl⟩
    refine ⟨_, h.mem_constituents.2 ⟨a₁, t, ht, rfl, htc⟩, _, h.mem_constituents.2 ⟨a₂, u, hu, rfl, huc⟩, ?_⟩
    rw [mem_joins]
    obtain ⟨r, hrt, rfl⟩ := rule?_item ht i
    obtain ⟨s, hsu, rfl⟩ := rule?_item hu m
    exact ⟨r, s, hrt, hsu, _, Grammar.mem_binaryRulesFor.2 ⟨hr, rfl, ht.isTerminal, hu.isTerminal⟩, item_pair ht hu a⟩

theorem Table.putAll_joined (h : Table p.grammar w c) (i m j : Nat) : Table p.grammar w (c.putAll (p.joined c i m j)) ∧
    ∀ x, x ∈ c.putAll (p.joined c i m j) ↔ x ∈ c ∨ x ∈ p.joined c i m j :=
  h.putAll _ fun x hx => by
    obtain ⟨a, a₁, a₂, t, u, hr, ht, hu, -, -, rfl⟩ := h.mem_joined.1 hx
    exact ⟨a, i, j, _, .pair hr ht hu, rfl⟩

/-- A combination keeps the table and what is joined elsewhere, and joins its split. -/
theorem Table.combine (h : Table p.grammar w c) (him : i < m) (hmj : m < j) (hj : j ≤ w.length) :
    ∃ c', Yields (p.combine i m j) c () c' ∧ Table p.grammar w c' ∧ (∀ x ∈ c, x ∈ c') ∧ Joined p.grammar w c' i m j ∧
      ∀ {k n l}, Joined p.grammar w c k n l → (i, j) ≠ (k, n) → (i, j) ≠ (n, l) → Joined p.grammar w c' k n l := by
  obtain ⟨htable, hmem⟩ := h.putAll_joined i m j
  -- All that is new lies from `i` to `j`.
  have hold : ∀ {b k l t}, Derived p.grammar w b k l t → (i, j) ≠ (k, l) →
      t.item .cyk k ∈ c.putAll (p.joined c i m j) → t.item .cyk k ∈ c := by
    intro b k l t ht hne hx
    refine ((hmem _).1 hx).resolve_right fun hx => hne ?_
    obtain ⟨a, a₁, a₂, t', u, hr, ht', hu, -, -, he⟩ := h.mem_joined.1 hx
    have hover := ht.item_over .cyk
    rw [he] at hover
    obtain ⟨rfl, rfl⟩ := ((Derived.pair hr ht' hu).item_over .cyk).unique hover
    rfl
  refine ⟨_, combine_yields h.mixed him hmj (h.length ▸ hj), htable, fun x hx => (hmem x).2 (.inl hx), ?_, ?_⟩
  · intro a a₁ a₂ t u hr ht hu htc huc
    have hne₁ : (i, j) ≠ (i, m) := fun he => by cases he; omega
    have hne₂ : (i, j) ≠ (m, j) := fun he => by cases he; omega
    exact (hmem _).2 (.inr (h.mem_joined.2 ⟨a, a₁, a₂, t, u, hr, ht, hu, hold ht hne₁ htc, hold hu hne₂ huc, rfl⟩))
  · intro k n l hjoined hne₁ hne₂ a a₁ a₂ t u hr ht hu htc huc
    exact (hmem _).2 (.inl (hjoined hr ht hu (hold ht hne₁ htc) (hold hu hne₂ huc)))

/-- Combinations of splits in any order keep the table and join all that are final. -/
theorem Table.combineAll (h : Table p.grammar w c) (splits : List (Nat × Nat × Nat))
    (hs : ∀ s ∈ splits, s.1 < s.2.1 ∧ s.2.1 < s.2.2 ∧ s.2.2 ≤ w.length) :
    ∃ c', Yields (splits.forM fun (i, m, j) => p.combine i m j) c () c' ∧ Table p.grammar w c' ∧ (∀ x ∈ c, x ∈ c') ∧
      ∀ i m j, Final splits i m j → Joined p.grammar w c' i m j := by
  refine yields_forM _ splits
    (fun done c' => Table p.grammar w c' ∧ (∀ x ∈ c, x ∈ c') ∧ ∀ i m j, Final done i m j → Joined p.grammar w c' i m j)
    (fun done s rest c' hxs hc => ?_) ⟨h, fun x hx => hx, fun i m j hf => ?_⟩
  · obtain ⟨htable, hgrown, hjoined⟩ := hc
    obtain ⟨i, m, j⟩ := s
    obtain ⟨him, hmj, hj⟩ := hs (i, m, j) (by simp [hxs])
    obtain ⟨c'', hc'', htable', hgrown', hnew, hkeep⟩ := htable.combine him hmj hj
    refine ⟨c'', hc'', htable', fun x hx => hgrown' x (hgrown x hx), fun k n l hf => ?_⟩
    rcases final_concat hf with he | ⟨hf, hne₁, hne₂⟩
    · cases he
      exact hnew
    · exact hkeep (hjoined k n l hf) hne₁ hne₂
  · obtain ⟨before, after, he, -⟩ := hf
    simp at he

/-- The constituents of the words before `k` are on the chart. -/
def Worded (g : Grammar) (w : List String) (k : Nat) (c : Chart Item) : Prop :=
  ∀ {a b i}, i < k → ⟨a, [b]⟩ ∈ g.rules → g.isTerminal b = true → w[i]? = some b →
    (Tree.node a [.word b]).item .cyk i ∈ c

/-- With the words there and all splits joined the chart has every derivation tree. -/
theorem complete_of_joined (hwords : Worded g w w.length c)
    (hjoined : ∀ i m j, i < m → m < j → j ≤ w.length → Joined g w c i m j) (ht : Derived g w a i j t) :
    t.item .cyk i ∈ c := by
  induction ht with
  | word hr ht hw => exact hwords (List.getElem?_eq_some_iff.1 hw).1 hr ht hw
  | pair hr ht hu ih ih' => exact hjoined _ _ _ ht.bounds.1 hu.bounds.1 hu.bounds.2 hr ht hu ih ih'

/-! ## The parse -/

theorem mem_lexicalItems {b : String} :
    x ∈ p.lexicalItems i b ↔ ∃ a, ⟨a, [b]⟩ ∈ p.grammar.rules ∧ p.grammar.isTerminal b = true ∧
      x = (Tree.node a [.word b]).item .cyk i := by
  simp only [lexicalItems, List.mem_map, Grammar.mem_lexicalRulesFor]
  constructor
  · rintro ⟨⟨a, rhs⟩, ⟨hr, rfl, ht⟩, rfl⟩
    exact ⟨a, hr, ht, rfl⟩
  · rintro ⟨a, hr, ht, rfl⟩
    exact ⟨⟨a, [b]⟩, ⟨hr, rfl, ht⟩, rfl⟩

theorem table_empty (g : Grammar) (w : List String) : Table g w (.empty w.length) :=
  ⟨Chart.filed_empty _, rfl, fun x hx => absurd hx (Chart.not_mem_empty _ x)⟩

theorem nodup_lexicalItems (i : Nat) (b : String) : (p.lexicalItems i b).Nodup := by
  unfold lexicalItems
  rw [Grammar.lexicalRulesFor_eq_filter]
  refine (p.grammar.nodup_rules.filter _).map ?_
  intro r s he
  cases he
  rfl

/-- All items of the words before `k`, and no others, are followed by those of the word at `k`, which are new. -/
theorem Table.lexical (h : Table p.grammar w c) {k : Nat} {b : String} (hw : w[k]? = some b)
    (hwords : Worded p.grammar w k c) (hnarrow : ∀ x ∈ c, ∃ i < k, Over x i (i + 1)) :
    ∃ c', InsertingNew (offer ((p.lexicalItems k b).map .ok)) c (p.lexicalItems k b) c' ∧ Table p.grammar w c' ∧
      Worded p.grammar w (k + 1) c' ∧ ∀ x ∈ c', ∃ i < k + 1, Over x i (i + 1) := by
  have hderived : ∀ x ∈ p.lexicalItems k b, ∃ a t, Derived p.grammar w a k (k + 1) t ∧ x = t.item .cyk k := by
    intro x hx
    obtain ⟨a, hr, ht, rfl⟩ := mem_lexicalItems.1 hx
    exact ⟨a, _, .word hr ht hw, rfl⟩
  have hplaced : ∀ x ∈ p.lexicalItems k b, x.plain = true ∧ ∃ q, c.place x = .ok q := by
    intro x hx
    obtain ⟨a, t, ht, rfl⟩ := hderived x hx
    exact placed_of_derived ht h.length
  have hover : ∀ x ∈ p.lexicalItems k b, Over x k (k + 1) := by
    intro x hx
    obtain ⟨a, t, ht, rfl⟩ := hderived x hx
    exact ht.item_over .cyk
  have hnew : c.newOf (p.lexicalItems k b) = p.lexicalItems k b := by
    refine h.filed.newOf_eq_self h.plain (nodup_lexicalItems k b) fun x hx => ⟨hplaced x hx, fun hxc => ?_⟩
    obtain ⟨i, hi, hover'⟩ := hnarrow x hxc
    have := ((hover x hx).unique hover').1
    omega
  obtain ⟨htable, hmem⟩ := h.putAll _ fun x hx => by
    obtain ⟨a, t, ht, he⟩ := hderived x hx
    exact ⟨a, _, _, t, ht, he⟩
  refine ⟨_, insertingNew_offer (fun x hx => (hplaced x hx).2) hnew, htable, fun {a b' i} hi hr ht hw' => (hmem _).2 ?_,
    fun x hx => ?_⟩
  · rcases Nat.lt_succ_iff_lt_or_eq.1 hi with hi | rfl
    · exact .inl (hwords hi hr ht hw')
    · cases hw.symm.trans hw'
      exact .inr (mem_lexicalItems.2 ⟨a, hr, ht, rfl⟩)
  · rcases (hmem x).1 hx with hx | hx
    · obtain ⟨i, hi, hover'⟩ := hnarrow x hx
      exact ⟨i, Nat.lt_succ_of_lt hi, hover'⟩
    · exact ⟨k, Nat.lt_succ_self k, hover x hx⟩

/-- The constituents of the words, each of which is new, make a table, with nothing wider on it. -/
theorem lexicalAll (p : Cyk) (w : List String) :
    ∃ c, InsertingNew (w.zipIdx.forM fun (word, i) => do let _ ← offer ((p.lexicalItems i word).map .ok))
        (.empty w.length) () c ∧
      Table p.grammar w c ∧ Worded p.grammar w w.length c ∧ ∀ x ∈ c, ∃ i < w.length, Over x i (i + 1) := by
  have h := insertingNew_forM (fun (word, i) => do let _ ← offer ((p.lexicalItems i word).map .ok)) w.zipIdx
    (fun done c => Table p.grammar w c ∧ Worded p.grammar w done.length c ∧ ∀ x ∈ c, ∃ i < done.length, Over x i (i + 1))
    (fun done (b, i) rest c hxs ⟨htable, hwords, hnarrow⟩ => by
      have hget := congrArg (·[done.length]?) hxs
      simp only [List.getElem?_append_right (Nat.le_refl _), Nat.sub_self, List.getElem?_cons_zero, List.getElem?_zipIdx,
        Option.map_eq_some_iff, Prod.mk.injEq, Nat.zero_add] at hget
      obtain ⟨_, hw, rfl, rfl⟩ := hget
      obtain ⟨c', hc', hkept⟩ := htable.lexical hw hwords hnarrow
      rw [List.length_append]
      exact ⟨c', hc'.bind (inserting_pure () c').new, hkept⟩)
    ⟨table_empty p.grammar w, fun hi => absurd hi (Nat.not_lt_zero _), fun x hx => absurd hx (Chart.not_mem_empty _ x)⟩
  rwa [List.length_zipIdx] at h

/-- The chart has the items of all derivation trees of pieces of the input, and no others. -/
structure Filled (g : Grammar) (w : List String) (c : Chart Item) : Prop where
  filed : c.Filed
  length : c.length = w.length
  mem_iff : ∀ x, x ∈ c ↔ ∃ a i j t, Derived g w a i j t ∧ x = t.item .cyk i

/-- A parse ends without a fault, with a chart of all derivation trees. -/
theorem fill_yields (p : Cyk) (w : List String) :
    ∃ c, Yields (p.fill w) (.empty w.length) () c ∧ Filled p.grammar w c := by
  obtain ⟨c, hlex, h, hwords, -⟩ := lexicalAll p w
  obtain ⟨c', hcomb, h', hgrown, hjoined⟩ := h.combineAll (schedule w.length) fun s hs => mem_schedule.1 hs
  refine ⟨c', hlex.yields.bind (hcomb.bind ((yields_chart c').bind (yields_tellAs _ _ c'))), h'.filed, h'.length, ?_⟩
  refine fun x => ⟨h'.derived x, ?_⟩
  rintro ⟨a, i, j, t, ht, rfl⟩
  exact complete_of_joined (fun hi hr ht hw => hgrown _ (hwords hi hr ht hw))
    (fun i m j him hmj hj => hjoined i m j (final_schedule him hmj hj)) ht

end Cyk

end ParseChart
