import ParseChart.Proofs.Chart.Runs
/-!
# Twins

A chart compares items only under one id. Of such items as are equal and have equal ids, twins, it keeps one,
which answers for all of them from then on.
-/

namespace ParseChart

open ChartItem

variable {ι : Type} [ChartItem ι] {x y z : ι}

namespace ChartItem

/-- Equal items with equal ids. Of these a chart keeps one. -/
def Twin (x y : ι) : Prop := (x == y) = true ∧ (id? x == id? y) = true

theorem twin_refl (x : ι) : Twin x x := ⟨BEq.rfl, BEq.rfl⟩

theorem Twin.symm (h : Twin x y) : Twin y x := ⟨BEq.symm h.1, BEq.symm h.2⟩

theorem Twin.trans (h : Twin x y) (h' : Twin y z) : Twin x z := ⟨BEq.trans h.1 h'.1, BEq.trans h.2 h'.2⟩

end ChartItem

namespace Chart

variable {c : Chart ι} {p q : Place}

theorem beq_id_of_place (hx : c.place x = .ok p) (hy : c.place y = .ok q) : (id? x == id? y) = (p.id == q.id) := by
  rw [(place_eq_ok hx).1, (place_eq_ok hy).1, Option.some_beq_some]

/-! ## What a chart finds -/

/-- An item is found iff it has a twin there. -/
theorem Filed.holds_iff_twin (h : c.Filed) (hy : c.place y = .ok p) : c.holds p y = true ↔ ∃ x, x ∈ c ∧ Twin x y := by
  rw [h.holds_iff]
  constructor
  · rintro ⟨x, hx, hid, he⟩
    obtain ⟨q, hq, -⟩ := h.of_from _ x hx
    rw [(place_eq_ok hq).1, Option.any_some] at hid
    exact ⟨x, h.mem_of_rowFrom hx, he, (beq_id_of_place hq hy).trans hid⟩
  · rintro ⟨x, hx, he, hid⟩
    obtain ⟨q, hq⟩ := h.place_of_mem hx
    rw [beq_id_of_place hq hy] at hid
    refine ⟨x, (h.mem_rowFrom hq _).2 ⟨hx, (place_eq_of_beq he hq hy).1⟩, ?_, he⟩
    rw [(place_eq_ok hq).1, Option.any_some]
    exact hid

/-- What was offered is on the chart, or a twin was there before. -/
theorem Filed.exists_twin_put (h : c.Filed) (hx : c.place x = .ok p) : ∃ u, u ∈ c.put x ∧ Twin u x := by
  cases hadds : c.adds x with
  | true => exact ⟨x, h.mem_put.2 (.inr ⟨rfl, hadds⟩), twin_refl x⟩
  | false =>
    -- It is refused because of one that was found.
    rw [adds_of_place hx, Bool.not_eq_false'] at hadds
    obtain ⟨u, hu, htwin⟩ := (h.holds_iff_twin hx).1 hadds
    exact ⟨u, h.mem_put.2 (.inl hu), htwin⟩

/-- An offered item is found again by its twins, whatever was offered since. -/
theorem Filed.holds_of_offered (h : c.Filed) (hx : c.place x = .ok p) (hy : c.place y = .ok q) (htwin : Twin x y)
    (more : List ι) : ((c.put x).putAll more).holds q y = true := by
  obtain ⟨u, hu, htwin'⟩ := h.exists_twin_put hx
  have hlen : c.length = ((c.put x).putAll more).length := by rw [length_putAll, length_put]
  rw [place_congr hlen] at hy
  rw [((h.put x).putAll more).holds_iff_twin hy]
  exact ⟨u, (h.put x).mem_putAll.2 (.inl hu), htwin'.trans htwin⟩

/-! ## No two twins -/

/-- In the rows of an index, filed by one end, there are no two twins. -/
theorem pairwise_rows {rows : List (Row ι)} {side : Place → Nat}
    (hside : ∀ {x y p q}, (x == y) = true → c.place x = .ok p → c.place y = .ok q → side p = side q)
    (hkeyed : ∀ i, Buckets.Keyed id? (rows.getD i [])) (hdistinct : ∀ i, Buckets.Distinct (rows.getD i []))
    (hplaced : ∀ i, ∀ x ∈ (rows.getD i []).elems, ∃ p, c.place x = .ok p ∧ side p = i) :
    (rows.flatMap Buckets.elems).Pairwise fun x y => ¬ Twin x y := by
  have hrow : ∀ i (hi : i < rows.length), rows[i] = rows.getD i [] := fun i hi => by
    simp [List.getD_eq_getElem?_getD, hi]
  rw [List.pairwise_flatMap]
  constructor
  · rw [List.forall_mem_iff_forall_getElem]
    intro i hi
    rw [hrow, Buckets.elems, List.pairwise_flatMap]
    constructor
    · intro b hb
      refine (hdistinct i b hb).imp fun hne htwin => ?_
      exact Bool.false_ne_true (hne.symm.trans htwin.1)
    · refine (hkeyed i).distinct.imp_of_mem fun {b b'} hb hb' hne x hx y hy htwin => ?_
      -- With equal ids they are in one bucket.
      obtain ⟨p, hp, -⟩ := hplaced i x (List.mem_flatMap.2 ⟨b, hb, hx⟩)
      obtain ⟨q, hq, -⟩ := hplaced i y (List.mem_flatMap.2 ⟨b', hb', hy⟩)
      have hpq : (p.id == q.id) = true := (beq_id_of_place hp hq).symm.trans htwin.2
      have hbp := (hkeyed i).own b hb x hx
      have hbq := (hkeyed i).own b' hb' y hy
      rw [(place_eq_ok hp).1, Option.any_some] at hbp
      rw [(place_eq_ok hq).1, Option.any_some] at hbq
      rw [BEq.trans (BEq.trans hbp hpq) (BEq.symm hbq)] at hne
      cases hne
  · -- Equal items lie between the same positions, and so in one row.
    rw [List.pairwise_iff_getElem]
    intro i j hi hj hij x hx y hy htwin
    rw [hrow] at hx hy
    obtain ⟨p, hp, rfl⟩ := hplaced i x hx
    obtain ⟨q, hq, rfl⟩ := hplaced j y hy
    exact absurd (hside htwin.1 hp hq) (Nat.ne_of_lt hij)

theorem Filed.pairwise_outgoing (h : c.Filed) (hd : c.Distinct) :
    (c.outgoing.flatMap Buckets.elems).Pairwise fun x y => ¬ Twin x y := by
  refine pairwise_rows (c := c) (fun he hx hy => (place_eq_of_beq he hx hy).1) h.keyed_from hd.leaving fun i x hx => ?_
  obtain ⟨p, hp, hi, -⟩ := h.of_from i x hx
  exact ⟨p, hp, hi⟩

theorem Filed.pairwise_incoming (h : c.Filed) (hd : c.Distinct) :
    (c.incoming.flatMap Buckets.elems).Pairwise fun x y => ¬ Twin x y := by
  refine pairwise_rows (c := c) (fun he hx hy => (place_eq_of_beq he hx hy).2) h.keyed_to hd.reaching fun j x hx => ?_
  obtain ⟨p, hp, hj, -⟩ := h.of_to j x hx
  exact ⟨p, hp, hj⟩

end Chart

/-! ## Runs -/

namespace Operation

variable {p : Place} {s : Logged ι}

theorem contains_answer (h : s.chart.place y = .ok p) :
    ((ChartM.contains y).run.run s).1 = .ok (s.chart.holds p y) ∧ ((ChartM.insert y).run.run s).1 = .ok (!s.chart.holds p y) := by
  obtain ⟨s', hcontains, -⟩ := ChartM.yields_contains h s rfl
  obtain ⟨s'', hinsert, -⟩ := ChartM.yields_insert h s rfl
  rw [hcontains, hinsert, Chart.adds_of_place h]
  exact ⟨rfl, rfl⟩

theorem place_run (n : Nat) (source : String) (ops : List (Operation ι)) (x : ι) :
    (run n source ops).chart.place x = (Chart.empty n).place x := Chart.place_congr (length_run n source ops) x

theorem filed_run (n : Nat) (source : String) (ops : List (Operation ι)) :
    (run n source ops).chart.Filed ∧ (run n source ops).chart.Distinct := by
  obtain ⟨xs, hc, -⟩ := run_eq_putAll n source ops
  rw [hc]
  exact ⟨(Chart.filed_empty n).putAll xs, (Chart.filed_empty n).distinct_putAll (Chart.distinct_empty n) xs⟩

theorem exists_run_insert (n : Nat) (source : String) (ops more : List (Operation ι)) (x : ι) :
    ∃ xs, (run n source (ops ++ .insert x :: more)).chart = ((run n source ops).chart.put x).putAll xs := by
  have hrun : run n source (ops ++ .insert x :: more) = more.foldl perform (perform (run n source ops) (.insert x)) := by
    unfold run
    rw [List.foldl_append, List.foldl_cons]
  obtain ⟨xs, hc, -⟩ := exists_putAll (perform (run n source ops) (.insert x)) more
  rw [perform_insert, (ChartM.insert_outcome x (run n source ops)).1] at hc
  exact ⟨xs, by rw [hrun, perform_insert]; exact hc⟩

theorem run_inserts (n : Nat) (source : String) (xs : List ι) :
    (run n source (xs.map .insert)).chart = (Chart.empty n).putAll xs := (performAll_inserts _ xs).1

end Operation

end ParseChart
