import ParseChart.Proofs.Chart.Order
import ParseChart.Proofs.Cyk.Parses
import ParseChart.Proofs.Item.Shift
/-!
# The cells of a piece of the input

A parse of a piece of the input and the parse of the whole are run beside each other. What the whole parse
does for spans that are not in the piece leaves the cells of the piece alone, and what it does for the
others comes in the order in which the other parse does the same, further to the left. So the cells of the
two stay the same, item by item, but for that distance.
-/

namespace ParseChart

open ChartItem

namespace Cyk

open ChartM

variable {p : Cyk} {g : Grammar} {w : List String} {c d : Chart Item} {n i j k l m : Nat} {r : Rule} {cs : List Item}
  {x y : Item}

/-! ## Charts of constituents -/

/-- A constituent between positions up to `n` over plain items. -/
def Fits (n : Nat) (x : Item) : Prop :=
  ∃ (r : Rule) (i j : Nat) (cs : List Item),
    x = .cyk r (.between i j) cs ∧ Item.plainAll cs = true ∧ i ≤ j ∧ j ≤ n

structure Tabular (n : Nat) (c : Chart Item) : Prop where
  filed : c.Filed
  length : c.length = n
  fits : ∀ x ∈ c, Fits n x

theorem Fits.plain (h : Fits n x) : x.plain = true := by
  obtain ⟨r, i, j, cs, rfl, hcs, -⟩ := h
  simpa [Item.plain] using hcs

theorem tabular_empty (n : Nat) : Tabular n (.empty n) :=
  ⟨Chart.filed_empty n, rfl, fun x hx => absurd hx (Chart.not_mem_empty n x)⟩

theorem Tabular.plain (h : Tabular n c) : c.Plain := fun x hx => (h.fits x hx).plain

theorem Tabular.mixed (h : Tabular n c) : c.Mixed := h.filed.mixed h.plain

theorem Tabular.place (h : Tabular n c) (hx : Fits n x) : ∃ q, c.place x = .ok q := by
  obtain ⟨r, i, j, cs, rfl, -, hij, hj⟩ := hx
  obtain ⟨id, hp⟩ := over_cyk.place c hij (h.length ▸ hj)
  exact ⟨_, hp⟩

theorem Tabular.put (h : Tabular n c) (hx : Fits n x) : Tabular n (c.put x) := by
  refine ⟨h.filed.put x, (Chart.length_put c x).trans h.length, fun y hy => ?_⟩
  rcases h.filed.mem_put.1 hy with hy | ⟨rfl, -⟩
  · exact h.fits y hy
  · exact hx

/-- A new constituent comes to stand, in its own cell, behind the last one of its symbol. -/
theorem Tabular.cell_put (h : Tabular n c) (hx : x = .cyk r (.between i j) cs) (hcs : Item.plainAll cs = true)
    (hij : i ≤ j) (hj : j ≤ n) (hnew : x ∉ c) (k l : Nat) :
    (c.put x).cell k l =
      if i = k ∧ j = l then Buckets.insertBehind (·.derives r.lhs) x (c.cell k l) else c.cell k l := by
  have hfits : Fits n x := ⟨r, i, j, cs, hx, hcs, hij, hj⟩
  have hover : Over x i j := hx ▸ over_cyk
  obtain ⟨q, hq⟩ := h.place hfits
  obtain ⟨hstart, hstop⟩ := hover.place_eq hq
  rw [h.mixed.cell_put (hx ▸ rfl) hq ((h.filed.adds_iff h.plain hfits.plain hq).2 hnew), hstart, hstop]
  by_cases hkl : i = k ∧ j = l
  · obtain ⟨rfl, rfl⟩ := hkl
    rw [if_pos ⟨rfl, rfl⟩, if_pos ⟨rfl, rfl⟩]
    refine Buckets.insertBehind_congr fun y hy => ?_
    obtain ⟨s, i', j', ds, rfl, -⟩ := h.fits y (h.filed.mem_of_cell hy)
    obtain ⟨-, rfl, rfl⟩ := (over_cyk.mem_cell h.filed i j).1 hy
    rw [Bool.eq_iff_iff, Item.named_iff rfl over_cyk (hx ▸ (Chart.place_eq_ok hq).1)]
    exact and_iff_right rfl
  · rw [if_neg hkl, if_neg hkl]

/-! ## Two charts beside each other -/

/-- The cells of `d`, for `k` words, are the cells of `c` from position `i` on, but for that distance. -/
structure Embeds (n i k : Nat) (c d : Chart Item) : Prop where
  whole : Tabular n c
  piece : Tabular k d
  cells : ∀ a b, b ≤ k → c.cell (a + i) (b + i) = (d.cell a b).map (Item.shift i)

theorem shift_cyk (n : Nat) (r : Rule) (i j : Nat) (cs : List Item) :
    (Item.cyk r (.between i j) cs).shift n = .cyk r (.between (i + n : Nat) (j + n : Nat)) (Item.shiftAll n cs) := rfl

theorem Embeds.mem_iff (h : Embeds n i k c d) (hx : Fits k x) : x.shift i ∈ c ↔ x ∈ d := by
  obtain ⟨r, a, b, cs, rfl, -, -, hb⟩ := hx
  have hover : Over (Item.shift i (.cyk r (.between a b) cs)) (a + i) (b + i) := shift_cyk i r a b cs ▸ over_cyk
  have hcell : Item.shift i (.cyk r (.between a b) cs) ∈ c.cell (a + i) (b + i) ↔
      .cyk r (.between a b) cs ∈ d.cell a b := by
    rw [h.cells a b hb, List.mem_map]
    constructor
    · rintro ⟨y, hy, he⟩
      exact Item.shift_inj he ▸ hy
    · exact fun hy => ⟨_, hy, rfl⟩
  rw [hover.mem_cell h.whole.filed, over_cyk.mem_cell h.piece.filed] at hcell
  simpa using hcell

theorem fits_shift (hn : i + k ≤ n) (hx : Fits k x) : Fits n (x.shift i) := by
  obtain ⟨r, a, b, cs, rfl, hcs, hab, hb⟩ := hx
  exact ⟨r, a + i, b + i, _, rfl, Item.plainAll_shiftAll i cs hcs, by omega, by omega⟩

/-- The same constituent is offered to both. -/
theorem Embeds.put (h : Embeds n i k c d) (hn : i + k ≤ n) (hx : Fits k x) :
    Embeds n i k (c.put (x.shift i)) (d.put x) := by
  refine ⟨h.whole.put (fits_shift hn hx), h.piece.put hx, fun a b hb => ?_⟩
  by_cases hmem : x ∈ d
  · rw [h.whole.filed.put_of_mem ((h.mem_iff hx).2 hmem), h.piece.filed.put_of_mem hmem]
    exact h.cells a b hb
  · have hmem' := mt (h.mem_iff hx).1 hmem
    obtain ⟨r, a', b', cs, rfl, hcs, hab', hb'⟩ := hx
    have hcs' := Item.plainAll_shiftAll i cs hcs
    rw [h.piece.cell_put rfl hcs hab' hb' hmem,
      h.whole.cell_put (shift_cyk i r a' b' cs) hcs' (by omega) (by omega) hmem', h.cells a b hb]
    simp only [Nat.add_right_cancel_iff]
    split
    · exact (Buckets.map_insertBehind fun y _ => Item.derives_shift i r.lhs y).symm
    · rfl

/-- A constituent that is not within the piece is offered to the whole. -/
theorem Embeds.put_left (h : Embeds n i k c d) {r : Rule} {a b : Nat} {cs : List Item} (hcs : Item.plainAll cs = true)
    (hab : a ≤ b) (hb : b ≤ n) (hout : ¬ (i ≤ a ∧ b ≤ i + k)) :
    Embeds n i k (c.put (.cyk r (.between a b) cs)) d := by
  refine ⟨h.whole.put ⟨r, a, b, cs, rfl, hcs, hab, hb⟩, h.piece, fun a' b' hb' => ?_⟩
  by_cases hmem : Item.cyk r (.between a b) cs ∈ c
  · rw [h.whole.filed.put_of_mem hmem]
    exact h.cells a' b' hb'
  · rw [h.whole.cell_put rfl hcs hab hb hmem, if_neg (by omega)]
    exact h.cells a' b' hb'

theorem Embeds.putAll (h : Embeds n i k c d) (hn : i + k ≤ n) {xs : List Item} (hxs : ∀ x ∈ xs, Fits k x) :
    Embeds n i k (c.putAll (xs.map (Item.shift i))) (d.putAll xs) := by
  induction xs generalizing c d with
  | nil => exact h
  | cons x xs ih => exact ih (h.put hn (hxs x (by simp))) fun y hy => hxs y (by simp [hy])

theorem Embeds.putAll_left (h : Embeds n i k c d) {a b : Nat} (hab : a ≤ b) (hb : b ≤ n)
    (hout : ¬ (i ≤ a ∧ b ≤ i + k)) {xs : List Item}
    (hxs : ∀ x ∈ xs, ∃ r cs, x = .cyk r (.between a b) cs ∧ Item.plainAll cs = true) : Embeds n i k (c.putAll xs) d := by
  induction xs generalizing c with
  | nil => exact h
  | cons x xs ih =>
    obtain ⟨r, cs, rfl, hcs⟩ := hxs x (by simp)
    exact ih (h.put_left hcs hab hb hout) fun y hy => hxs y (by simp [hy])

/-! ## Two parses beside each other -/

theorem cyk_of_lexical {b : String} (hx : x ∈ p.lexicalItems k b) :
    ∃ r cs, x = .cyk r (.between k (k + 1 : Nat)) cs ∧ Item.plainAll cs = true := by
  obtain ⟨r, -, rfl⟩ := List.mem_map.1 hx
  exact ⟨r, _, rfl, rfl⟩

/-- The words of a piece come, with their positions, in the order that they have there. -/
theorem filter_zipIdx (w : List String) (hij : i ≤ j) (hj : j ≤ w.length) :
    w.zipIdx.filter (fun s => decide (i ≤ s.2 ∧ s.2 < j)) = (slice w i j).zipIdx.map fun s => (s.1, s.2 + i) := by
  have hzip : w.zipIdx =
      (slice w 0 i).zipIdx ++ ((slice w i j).zipIdx i ++ (slice w j w.length).zipIdx j) := by
    have hsplit : slice w 0 i ++ (slice w i j ++ slice w j w.length) = w := by
      rw [slice_append hij hj, slice_append (Nat.zero_le i) (Nat.le_trans hij hj), slice_all]
    have happend := congrArg (List.zipIdx · 0) hsplit
    simp only [List.zipIdx_append, length_slice hj, length_slice (Nat.le_trans hij hj), Nat.zero_add, Nat.sub_zero,
      Nat.add_sub_cancel' hij] at happend
    exact happend.symm
  rw [hzip, List.filter_append, List.filter_append, List.filter_eq_nil_iff.2, List.filter_eq_self.2,
    List.filter_eq_nil_iff.2, List.nil_append, List.append_nil]
  · exact (List.map_snd_add_zipIdx_eq_zipIdx (n := i) (k := 0)).symm
  · intro s hs
    have := List.le_snd_of_mem_zipIdx hs
    simp
    omega
  · intro s hs
    have := List.le_snd_of_mem_zipIdx hs
    have := List.snd_lt_add_of_mem_zipIdx hs
    rw [length_slice hj] at this
    simp
    omega
  · intro s hs
    have := List.snd_lt_add_of_mem_zipIdx hs
    rw [length_slice (Nat.le_trans hij hj)] at this
    simp
    omega

theorem Embeds.constituents (h : Embeds n i k c d) {a b : Nat} (hb : b ≤ k) :
    c.constituents (a + i) (b + i) = (d.constituents a b).map (Item.shift i) := by
  unfold Chart.constituents
  rw [h.cells a b hb, List.filter_map]
  congr 1
  exact List.filter_congr fun x _ => by rw [Function.comp_apply, Item.kind?_shift]

theorem Embeds.joined (h : Embeds n i k c d) {a m b : Nat} (hm : m ≤ k) (hb : b ≤ k) :
    p.joined c (a + i) (m + i) (b + i) = (p.joined d a m b).map (Item.shift i) := by
  unfold Cyk.joined
  rw [h.constituents hm, h.constituents hb, List.flatMap_map, List.map_flatMap]
  congr 1
  funext left
  rw [List.flatMap_map, List.map_flatMap]
  congr 1
  funext right
  exact joins_add p i a b left right

/-- A word of the piece. -/
theorem Embeds.word (h : Embeds n i k c d) (hn : i + k ≤ n) {a : Nat} (ha : a < k) (b : String) :
    ∃ c' d', Yields (do let _ ← offer ((p.lexicalItems (a + i : Nat) b).map .ok)) c () c' ∧
      Yields (do let _ ← offer ((p.lexicalItems a b).map .ok)) d () d' ∧ Embeds n i k c' d' := by
  have hfits : ∀ x ∈ p.lexicalItems a b, Fits k x := fun x hx => by
    obtain ⟨r, cs, rfl, hcs⟩ := cyk_of_lexical hx
    exact ⟨r, a, a + 1, cs, rfl, hcs, by omega, by omega⟩
  have hplaced : ∀ x ∈ (p.lexicalItems a b).map (Item.shift i), ∃ q, c.place x = .ok q := fun x hx => by
    obtain ⟨y, hy, rfl⟩ := List.mem_map.1 hx
    exact h.whole.place (fits_shift hn (hfits y hy))
  rw [lexicalItems_add]
  exact ⟨_, _, Yields.bind (yields_offer hplaced) (yields_pure () _),
    Yields.bind (yields_offer fun x hx => h.piece.place (hfits x hx)) (yields_pure () _), h.putAll hn hfits⟩

theorem Embeds.word_left (h : Embeds n i k c d) {a : Nat} (ha : a < n) (hout : ¬ (i ≤ a ∧ a < i + k)) (b : String) :
    ∃ c', Yields (do let _ ← offer ((p.lexicalItems a b).map .ok)) c () c' ∧ Embeds n i k c' d := by
  have hplaced : ∀ x ∈ p.lexicalItems a b, ∃ q, c.place x = .ok q := fun x hx => by
    obtain ⟨r, cs, rfl, hcs⟩ := cyk_of_lexical hx
    exact h.whole.place ⟨r, a, a + 1, cs, rfl, hcs, by omega, by omega⟩
  exact ⟨_, Yields.bind (yields_offer hplaced) (yields_pure () _),
    h.putAll_left (Nat.le_succ a) ha hout fun x hx => cyk_of_lexical hx⟩

/-- A split of a span within the piece. -/
theorem Embeds.combine (h : Embeds n i k c d) (hn : i + k ≤ n) {a m b : Nat} (ham : a < m) (hmb : m < b) (hb : b ≤ k) :
    ∃ c' d', Yields (p.combine (a + i : Nat) (m + i : Nat) (b + i : Nat)) c () c' ∧ Yields (p.combine a m b) d () d' ∧
      Embeds n i k c' d' := by
  have hwhole : Yields (p.combine (a + i : Nat) (m + i : Nat) (b + i : Nat)) c () _ :=
    combine_yields h.whole.mixed (by omega) (by omega) (by rw [h.whole.length]; omega)
  have hpiece : Yields (p.combine a m b) d () _ :=
    combine_yields h.piece.mixed ham hmb (h.piece.length ▸ hb)
  rw [h.joined (by omega) hb] at hwhole
  refine ⟨_, _, hwhole, hpiece, h.putAll hn fun x hx => ?_⟩
  obtain ⟨r, cs, rfl, hcs⟩ := cyk_of_joined h.piece.filed h.piece.plain hx
  exact ⟨r, a, b, cs, rfl, hcs, by omega, hb⟩

theorem Embeds.combine_left (h : Embeds n i k c d) {a m b : Nat} (ham : a < m) (hmb : m < b) (hb : b ≤ n)
    (hout : ¬ (i ≤ a ∧ b ≤ i + k)) : ∃ c', Yields (p.combine a m b) c () c' ∧ Embeds n i k c' d :=
  ⟨_, combine_yields h.whole.mixed ham hmb (h.whole.length ▸ hb),
    h.putAll_left (by omega) hb hout fun _ hx => cyk_of_joined h.whole.filed h.whole.plain hx⟩

theorem embeds_empty (n i k : Nat) : Embeds n i k (.empty n) (.empty k) := by
  refine ⟨tabular_empty n, tabular_empty k, fun a b _ => ?_⟩
  unfold Chart.cell
  rw [Chart.rowFrom_empty, Chart.rowFrom_empty]
  rfl

theorem fill_beside (p : Cyk) (w : List String) (hij : i ≤ j) (hj : j ≤ w.length) :
    ∃ c d, Yields (p.fill w) (.empty w.length) () c ∧ Yields (p.fill (slice w i j)) (.empty (j - i)) () d ∧
      Embeds w.length i (j - i) c d := by
  have hlen := length_slice (i := i) hj
  have hn : i + (j - i) ≤ w.length := by omega
  have hfilter := filter_zipIdx w hij hj
  obtain ⟨c, d, hc, hd, h⟩ := yields_beside (f := fun s => do let _ ← offer ((p.lexicalItems s.2 s.1).map .ok))
    (g := fun s => do let _ ← offer ((p.lexicalItems s.2 s.1).map .ok))
    (R := Embeds w.length i (j - i))
    (fun s hs c d h => by
      have := List.snd_lt_of_mem_zipIdx hs
      exact h.word hn (by omega) s.1)
    (fun s hs hq c d h => by
      have := List.snd_lt_of_mem_zipIdx hs
      rw [decide_eq_false_iff_not] at hq
      exact h.word_left this (by omega) s.1) hfilter (embeds_empty _ i _)
  obtain ⟨c', d', hc', hd', h'⟩ := yields_beside (f := fun s => p.combine s.1 s.2.1 s.2.2)
    (g := fun s => p.combine s.1 s.2.1 s.2.2)
    (R := Embeds w.length i (j - i))
    (fun s hs c d h => by
      obtain ⟨ham, hmb, hb⟩ := mem_schedule.1 hs
      exact h.combine hn ham hmb hb)
    (fun s hs hq c d h => by
      obtain ⟨ham, hmb, hb⟩ := mem_schedule.1 hs
      rw [decide_eq_false_iff_not] at hq
      exact h.combine_left ham hmb hb hq) (filter_schedule hn) h
  refine ⟨c', d', hc.bind (hc'.bind ((yields_chart c').bind (yields_tellAs _ _ c'))), ?_, h'⟩
  unfold fill
  rw [hlen]
  exact hd.bind (hd'.bind ((yields_chart d').bind (yields_tellAs _ _ d')))

/-- The items of a cell are, one by one, those of the only cell over the whole input in a parse of the words there
alone, moved to where these words stand. -/
theorem cell_of_piece (hg : g.isNormalForm = true) (start : Option String) (w : List String) (hij : i < j)
    (hj : j ≤ w.length) :
    ∃ p s s' items, ofGrammar g start = .ok p ∧ p.parse w = (.ok (), s) ∧ p.parse (slice w i j) = (.ok (), s') ∧
      s'.chart.itemsSpanning (.int 0) (.int (j - i : Nat)) = .ok items ∧
      s.chart.itemsSpanning (.int i) (.int j) = .ok (items.map (Item.shift i)) := by
  obtain ⟨c, d, hc, hd, h⟩ := fill_beside ⟨g, start.getD g.start⟩ w (Nat.le_of_lt hij) hj
  rw [← length_slice hj] at hd
  obtain ⟨s, hs, rfl⟩ := hc.onEmpty Chart.logName
  obtain ⟨s', hs', rfl⟩ := hd.onEmpty Chart.logName
  refine ⟨⟨g, start.getD g.start⟩, s, s', s'.chart.cell 0 (j - i), ofGrammar_eq_ok.2 ⟨hg, rfl⟩, hs, hs', ?_, ?_⟩
  · exact Chart.itemsSpanning_int (Nat.zero_le _) (Nat.le_of_eq h.piece.length.symm)
  · have hcell := h.cells 0 (j - i) (Nat.le_refl _)
    rw [Nat.zero_add, Nat.sub_add_cancel (Nat.le_of_lt hij)] at hcell
    rw [← hcell]
    exact Chart.itemsSpanning_int (Nat.le_of_lt hij) (h.whole.length ▸ hj)

/-- The last two of three words. -/
theorem cell_of_piece_doubling :
    (Grammar.doubling.isNormalForm = true ∧ 1 < 3 ∧ 3 ≤ ["a", "a", "a"].length) ∧
      ∃ p s s' items, ofGrammar .doubling none = .ok p ∧ p.parse ["a", "a", "a"] = (.ok (), s) ∧
        p.parse ["a", "a"] = (.ok (), s') ∧ s'.chart.itemsSpanning (.int 0) (.int 2) = .ok items ∧
        s.chart.itemsSpanning (.int 1) (.int 3) = .ok (items.map (Item.shift 1)) :=
  ⟨⟨Grammar.isNormalForm_doubling, by decide, by decide⟩,
    cell_of_piece (i := 1) (j := 3) Grammar.isNormalForm_doubling none ["a", "a", "a"] (by decide) (by decide)⟩

end Cyk

end ParseChart
