import ParseChart.Proofs.Earley.Closure
/-!
# The course of a parse

`Progress` is carried from position to position, so that at the end of a parse nothing that can be reached
is missing from the chart. A closure takes up each item that stops at its position once, and changes no
row before it: the steps of all closures can be counted on the finished chart.
-/

namespace ParseChart.Earley

open ChartItem ChartM

variable {p : Earley} {w : List String} {c c' : Chart Item} {k m len n fuel : Nat} {queue : List Item} {r : Rule} {d i j : Nat} {cs : List Item}

/-- The next position is closed with all its items in the queue. -/
theorem Progress.next (h : Progress p w k [] c) : Progress p w (k + 1) (c.rowTo (k + 1)).elems c where
  filed := h.filed
  length := h.length
  started := h.started
  reached := h.reached
  upto r d i j cs hx := Nat.le_succ_of_le (h.upto r d i j cs hx)
  queued x hx := by
    obtain ⟨r, d, i, j, cs, rfl, -⟩ := h.reached x ⟨_, hx⟩
    obtain ⟨hc, rfl⟩ := (over_dotted.mem_rowTo h.filed _).1 hx
    exact ⟨hc, (over_dotted.stopsAt _).2 rfl⟩
  settled r d i j cs hx hj := by
    by_cases hk : j = k + 1
    · exact .inl ((over_dotted.mem_rowTo h.filed _).2 ⟨hx, hk⟩)
    · exact .inr ((h.settled r d i j cs hx (by omega)).resolve_left (by simp))

theorem adds_startItem (p : Earley) (w : List String) : (Chart.empty w.length).adds p.startItem = true := by
  have hplain : (Chart.empty w.length).Plain := fun x hx => absurd hx (Chart.not_mem_empty _ x)
  obtain ⟨id, hp⟩ := (over_startItem p).place (.empty w.length) (Nat.le_refl 0) (Nat.zero_le _)
  exact ((Chart.filed_empty w.length).adds_iff hplain rfl hp).2 (Chart.not_mem_empty _ _)

theorem mem_seeded {x : Item} : x ∈ p.seeded w ↔ x = p.startItem := by
  rw [seeded, (Chart.filed_empty w.length).mem_put, adds_startItem]
  simp [Chart.not_mem_empty]

theorem progress_start (p : Earley) (w : List String) :
    Progress p w 0 ((p.seeded w).rowTo 0).elems (p.seeded w) := by
  have hone : ∀ {r d i j cs}, dotted r d i j cs ∈ p.seeded w → j = 0 := fun hx => (dotted_inj (mem_seeded.1 hx)).2.2.2.1
  have hfiled : (p.seeded w).Filed := (Chart.filed_empty w.length).put p.startItem
  exact {
    filed := hfiled
    length := Chart.length_put _ _
    started := mem_seeded.2 rfl
    reached := fun x hx => ⟨_, _, _, _, _, mem_seeded.1 hx, .start⟩
    upto := fun r d i j cs hx => by rw [hone hx]; exact Nat.zero_le _
    queued := fun x hx => by
      rw [mem_seeded.1 ⟨0, hx⟩]
      exact ⟨mem_seeded.2 rfl, (over_dotted.stopsAt _).2 rfl⟩
    settled := fun r d i j cs hx _ => .inl ((over_dotted.mem_rowTo hfiled 0).2 ⟨hx, hone hx⟩) }

/-- Nothing stops behind the last position. -/
theorem Progress.rowTo_end (h : Progress p w n queue c) : (c.rowTo (w.length + 1)).elems = [] := by
  apply List.eq_nil_iff_forall_not_mem.2
  intro x hx
  obtain ⟨r, d, i, j, cs, rfl, hr⟩ := h.reached x ⟨_, hx⟩
  have := hr.bounds.2
  have := ((over_dotted.mem_rowTo h.filed _).1 hx).2
  omega

/-- Once every position is closed, nothing more follows from an item of the chart. -/
theorem Progress.settled_of_mem (h : Progress p w (w.length + 1) (c.rowTo (w.length + 1)).elems c)
    (hx : dotted r d i j cs ∈ c) : Settled p w c r d i j cs := by
  have hj := (h.reached_of_mem hx).bounds.2
  rw [h.rowTo_end] at h
  exact (h.settled _ _ _ _ _ hx (by omega)).resolve_left List.not_mem_nil

/-- So nothing that can be reached is missing. -/
theorem Progress.complete (h : Progress p w (w.length + 1) (c.rowTo (w.length + 1)).elems c)
    (hr : Reached p w r d i j cs) : dotted r d i j cs ∈ c := by
  induction hr with
  | start => exact h.started
  | predict _ hs hd ih => exact h.settled_of_mem ih _ (.predict hs hd)
  | scan _ ha ht hw ih => exact h.settled_of_mem ih _ (.scan ha ht hw)
  | complete _ _ hs ih ih' =>
    exact h.settled_of_mem ih' _ (.complete (List.getElem?_eq_none (Nat.le_refl _)) ih hs)

/-- Closing the positions from `k` on carries the invariant along, keeps the rows before `k`, and takes as many steps
at each position as items stop there in the end. -/
theorem Closes.progress (hne : p.grammar.hasEmptyRule = false) (hc : Closes p w (List.range' k len) c n c')
    (h : Progress p w k (c.rowTo k).elems c) :
    Progress p w (k + len) (c'.rowTo (k + len)).elems c' ∧ (∀ j < k, c'.rowTo j = c.rowTo j) ∧
      ∀ fuel, n ≤ fuel ↔ ∀ j, k ≤ j → j < k + len → (c'.rowTo j).elems.length ≤ fuel := by
  induction len generalizing k c n with
  | zero =>
    cases hc
    exact ⟨h, fun _ _ => rfl, fun fuel => by simp; omega⟩
  | succ len ih =>
    cases hc with
    | @cons _ _ _ c₁ _ steps m _ hd hrest =>
      obtain ⟨hdone, hsteps, hrows⟩ := hd.progress hne h
      obtain ⟨hend, hrows', hfuel⟩ := ih hrest hdone.next
      rw [Nat.add_right_comm] at hend
      refine ⟨hend, fun j hj => (hrows' j (by omega)).trans (hrows j hj), fun fuel => ?_⟩
      have hrow : (c'.rowTo k).elems.length = steps := by
        rw [hrows' k (Nat.lt_succ_self k)]
        omega
      rw [Nat.max_le, hfuel, ← hrow]
      constructor
      · rintro ⟨hk, hlater⟩ j hj hjl
        rcases Nat.eq_or_lt_of_le hj with rfl | hj
        · exact hk
        · exact hlater j hj (by omega)
      · exact fun hall => ⟨hall k (Nat.le_refl k) (by omega), fun j hj hjl => hall j (by omega) (by omega)⟩

/-- Positions that were closed on some fuel have been closed. -/
theorem Progress.closes_of_run (hne : p.grammar.hasEmptyRule = false) {s s' : Logged Item}
    (h : Progress p w k (s.chart.rowTo k).elems s.chart) (hlen : k + len ≤ w.length + 1)
    (hrun : ((List.range' k len).forM fun k => p.closure fuel w k).run.run s = (.ok (), s')) :
    ∃ n, n ≤ fuel ∧ Closes p w (List.range' k len) s.chart n s'.chart := by
  induction len generalizing k s with
  | zero =>
    cases hrun
    exact ⟨0, Nat.zero_le _, .nil _⟩
  | succ len ih =>
    obtain ⟨_, t, hclosure, hrest⟩ := run_bind_eq_ok hrun
    have hk : k ≤ s.chart.length := by rw [h.length]; omega
    obtain ⟨t', ht', hdrain⟩ := (yields_itemsTo hk).run_bind rfl fun queue => p.drain w k fuel queue
    obtain ⟨n, hn, hd⟩ := Progress.drains_of_run hne (ht' ▸ h) (hdrain.symm.trans hclosure)
    rw [ht'] at hd
    obtain ⟨m, hm, hc⟩ := ih (hd.progress hne h).1.next (by omega) hrest
    exact ⟨max n m, Nat.max_le.2 ⟨hn, hm⟩, .cons hk hd hc⟩

/-- Positions with finitely many items to reach can be closed. -/
theorem Progress.exists_closes (hne : p.grammar.hasEmptyRule = false) (hall : ∀ k, ∃ all, Bounds p w k all)
    (h : Progress p w k (c.rowTo k).elems c) (hlen : k + len ≤ w.length + 1) :
    ∃ n c', Closes p w (List.range' k len) c n c' := by
  induction len generalizing k c with
  | zero => exact ⟨0, c, .nil c⟩
  | succ len ih =>
    obtain ⟨all, hk⟩ := hall k
    obtain ⟨n, c₁, hd⟩ := h.exists_drains hne hk all.length (by omega)
    obtain ⟨m, c₂, hc⟩ := ih (hd.progress hne h).1.next (by omega)
    exact ⟨max n m, c₂, .cons (by rw [h.length]; omega) hd hc⟩

/-! ## Whole parses -/

theorem Completes.progress (hne : p.grammar.hasEmptyRule = false) (hc : Completes p w n c) :
    Progress p w (w.length + 1) (c.rowTo (w.length + 1)).elems c := by
  unfold Completes at hc
  rw [List.range_eq_range'] at hc
  have := (hc.progress hne (progress_start p w)).1
  rwa [Nat.zero_add] at this

/-- The steps of a parse, counted on the finished chart. -/
theorem Completes.steps (hne : p.grammar.hasEmptyRule = false) (hc : Completes p w n c) (fuel : Nat) :
    n ≤ fuel ↔ ∀ k ≤ w.length, (c.rowTo k).elems.length ≤ fuel := by
  unfold Completes at hc
  rw [List.range_eq_range'] at hc
  rw [(hc.progress hne (progress_start p w)).2.2 fuel]
  exact ⟨fun h k hk => h k (Nat.zero_le k) (by omega), fun h k _ hk => h k (by omega)⟩

theorem completes_of_parse (hne : p.grammar.hasEmptyRule = false) {s : Logged Item}
    (h : p.parse fuel w = (.ok (), s)) : ∃ n, n ≤ fuel ∧ Completes p w n s.chart := by
  obtain ⟨isNew, hseed⟩ := yields_seed p w
  have hfill : (ChartM.tell (.chart w.length) >>= fun _ => p.fill fuel w).run.run ⟨.empty w.length, Chart.logName, []⟩ =
      (.ok (), s) := h
  obtain ⟨t, ht, hrun⟩ := (yields_tell _ _).run_bind rfl fun _ => p.fill fuel w
  rw [hrun] at hfill
  obtain ⟨t', ht', hrun'⟩ := hseed.run_bind ht fun _ => do
    (List.range (w.length + 1)).forM fun k => p.closure fuel w k
    tellAs logName (.parsed .earley w.length (← chart).itemCount)
  obtain ⟨_, s', hloop, hend⟩ := run_bind_eq_ok (hrun'.symm.trans hfill)
  cases hend
  rw [List.range_eq_range'] at hloop
  have hstart : Progress p w 0 (t'.chart.rowTo 0).elems t'.chart := ht' ▸ progress_start p w
  obtain ⟨n, hn, hc⟩ := hstart.closes_of_run hne (by omega) hloop
  rw [ht', ← List.range_eq_range'] at hc
  exact ⟨n, hn, hc⟩

theorem exists_completes (hne : p.grammar.hasEmptyRule = false) (hall : ∀ k, ∃ all, Bounds p w k all) :
    ∃ n c, Completes p w n c := by
  unfold Completes
  rw [List.range_eq_range']
  exact (progress_start p w).exists_closes hne hall (by omega)

/-- A finished chart holds what can be reached. -/
theorem Completes.mem_iff (hne : p.grammar.hasEmptyRule = false) (hc : Completes p w n c) (x : Item) :
    x ∈ c ↔ ∃ r d i j cs, x = dotted r d i j cs ∧ Reached p w r d i j cs := by
  refine ⟨(hc.progress hne).reached x, ?_⟩
  rintro ⟨r, d, i, j, cs, rfl, hr⟩
  exact (hc.progress hne).complete hr

end ParseChart.Earley
