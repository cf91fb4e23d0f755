import ParseChart.Cyk
/-!
# The order of the combinations

The schedule holds each split of each span, and after it no split of a narrower span. The splits of the
spans within a piece of the input come in the order in which a schedule for that piece alone has them. All
that a schedule needs is that each split is followed at some place by none of its two halves: what is
combined there is final.
-/

namespace ParseChart.Cyk

theorem mem_schedule {n i m j : Nat} : (i, m, j) ∈ schedule n ↔ i < m ∧ m < j ∧ j ≤ n := by
  simp only [schedule, List.mem_flatMap, List.mem_map, List.mem_range'_1, List.mem_range, Prod.mk.injEq]
  constructor
  · rintro ⟨width, hwidth, i', hi', m', hm', rfl, rfl, rfl⟩
    omega
  · rintro ⟨him, hmj, hj⟩
    exact ⟨j - i, by omega, i, by omega, m, by omega, rfl, rfl, by omega⟩

/-- The order of a schedule: by width, then from the left, then by split. -/
def Before (s t : Nat × Nat × Nat) : Prop :=
  s.2.2 - s.1 < t.2.2 - t.1 ∨ s.2.2 - s.1 = t.2.2 - t.1 ∧ (s.1 < t.1 ∨ s.1 = t.1 ∧ s.2.1 < t.2.1)

theorem Before.ne {s t : Nat × Nat × Nat} (h : Before s t) : s ≠ t := by
  rintro rfl
  unfold Before at h
  omega

theorem ordered_schedule (n : Nat) : (schedule n).Pairwise Before := by
  have hstep : ∀ {s m : Nat}, (List.range' s m).Pairwise (· < ·) := List.pairwise_lt_range' 1
  unfold schedule
  simp only [List.pairwise_flatMap, List.pairwise_map, List.mem_flatMap, List.mem_map]
  refine ⟨fun width _ => ⟨fun i _ => ?_, ?_⟩, ?_⟩
  · exact hstep.imp fun h => .inr ⟨rfl, .inr ⟨rfl, h⟩⟩
  · refine List.pairwise_lt_range.imp fun {i i'} h => ?_
    rintro _ ⟨m, -, rfl⟩ _ ⟨m', -, rfl⟩
    exact .inr ⟨by simp, .inl h⟩
  · refine hstep.imp fun {width width'} h => ?_
    rintro _ ⟨i, -, m, -, rfl⟩ _ ⟨i', -, m', -, rfl⟩
    exact .inl (by simpa using h)

/-- The widths only grow. -/
theorem pairwise_schedule (n : Nat) :
    (schedule n).Pairwise fun s t => s.2.2 - s.1 ≤ t.2.2 - t.1 := by
  refine (ordered_schedule n).imp fun {s t} h => ?_
  unfold Before at h
  omega

/-- Two lists in the order of a schedule that hold the same splits are the same. -/
theorem eq_of_ordered {ss ts : List (Nat × Nat × Nat)} (hss : ss.Pairwise Before) (hts : ts.Pairwise Before)
    (h : ∀ s, s ∈ ss ↔ s ∈ ts) : ss = ts := by
  have hperm : ss.Perm ts := (List.perm_ext_iff_of_nodup (hss.imp Before.ne) (hts.imp Before.ne)).2 h
  refine List.Perm.eq_of_pairwise (fun s t _ _ hst hts => ?_) hss hts hperm
  unfold Before at hst hts
  omega

/-- The split of a span that lies further on. -/
def shiftSplit (i : Nat) (s : Nat × Nat × Nat) : Nat × Nat × Nat := (s.1 + i, s.2.1 + i, s.2.2 + i)

/-- The splits of the spans within `i..i + k` come in the order of the schedule for `k` words. -/
theorem filter_schedule {n i k : Nat} (h : i + k ≤ n) :
    (schedule n).filter (fun s => decide (i ≤ s.1 ∧ s.2.2 ≤ i + k)) = (schedule k).map (shiftSplit i) := by
  have hshifted : ((schedule k).map (shiftSplit i)).Pairwise Before := by
    rw [List.pairwise_map]
    exact (ordered_schedule k).imp fun {s t} hst => by
      simp only [Before, shiftSplit] at *
      omega
  refine eq_of_ordered ((ordered_schedule n).filter _) hshifted ?_
  rintro ⟨a, m, b⟩
  simp only [List.mem_filter, mem_schedule, List.mem_map, decide_eq_true_eq, shiftSplit, Prod.mk.injEq, Prod.exists]
  constructor
  · rintro ⟨⟨ham, hmb, -⟩, hia, hbk⟩
    exact ⟨a - i, m - i, b - i, by omega, by omega, by omega, by omega⟩
  · rintro ⟨a, m, b, ⟨ham, hmb, hb⟩, rfl, rfl, rfl⟩
    omega

/-! ## Final splits -/

/-- The split stands at a place in the list after which neither of its halves is combined. -/
def Final (splits : List (Nat × Nat × Nat)) (i m j : Nat) : Prop :=
  ∃ before after, splits = before ++ (i, m, j) :: after ∧
    ∀ s ∈ after, (s.1, s.2.2) ≠ (i, m) ∧ (s.1, s.2.2) ≠ (m, j)

theorem final_schedule {n i m j : Nat} (him : i < m) (hmj : m < j) (hj : j ≤ n) : Final (schedule n) i m j := by
  obtain ⟨before, after, h⟩ := List.append_of_mem (mem_schedule.2 ⟨him, hmj, hj⟩)
  refine ⟨before, after, h, fun s hs => ?_⟩
  have hp := pairwise_schedule n
  rw [h, List.pairwise_append, List.pairwise_cons] at hp
  have hle : j - i ≤ s.2.2 - s.1 := hp.2.1.1 s hs
  simp only [ne_eq, Prod.mk.injEq]
  omega

/-- The split is combined, and for the last time after the last time that either of its halves is. -/
def CombinedLast (splits : List (Nat × Nat × Nat)) (i m j : Nat) : Prop :=
  (i, m, j) ∈ splits ∧ ∀ before after, splits = before ++ (i, m, j) :: after → (i, m, j) ∉ after →
    ∀ s ∈ after, (s.1, s.2.2) ≠ (i, m) ∧ (s.1, s.2.2) ≠ (m, j)

theorem CombinedLast.final {splits : List (Nat × Nat × Nat)} {i m j : Nat} (h : CombinedLast splits i m j) :
    Final splits i m j := by
  obtain ⟨hmem, hlast⟩ := h
  -- The last time is the first one from behind.
  obtain ⟨after, before, he, hnot⟩ := List.eq_append_cons_of_mem (List.mem_reverse.2 hmem)
  have hsplit : splits = before.reverse ++ (i, m, j) :: after.reverse := by
    rw [← splits.reverse_reverse, he]
    simp
  exact ⟨before.reverse, after.reverse, hsplit, hlast _ _ hsplit (by simpa using hnot)⟩

/-- The last time shows at one place. -/
theorem combinedLast_of_split {splits : List (Nat × Nat × Nat)} {i m j : Nat} (before after : List (Nat × Nat × Nat))
    (h : splits = before ++ (i, m, j) :: after) (hnot : (i, m, j) ∉ after)
    (hafter : ∀ s ∈ after, (s.1, s.2.2) ≠ (i, m) ∧ (s.1, s.2.2) ≠ (m, j)) : CombinedLast splits i m j := by
  refine ⟨by simp [h], fun before' after' h' hnot' => ?_⟩
  rw [h] at h'
  -- Were it at two places, the later one would be in what follows the earlier one.
  rcases List.append_eq_append_iff.1 h' with ⟨between, -, he⟩ | ⟨between, -, he⟩
  · cases between with
    | nil =>
      cases he
      exact hafter
    | cons s between =>
      cases he
      simp at hnot
  · cases between with
    | nil =>
      cases he
      exact hafter
    | cons s between =>
      cases he
      simp at hnot'

/-- What is final once one more split is combined is that split, or was final and is no half's. -/
theorem final_concat {splits : List (Nat × Nat × Nat)} {s : Nat × Nat × Nat} {i m j : Nat}
    (h : Final (splits ++ [s]) i m j) :
    s = (i, m, j) ∨ Final splits i m j ∧ (s.1, s.2.2) ≠ (i, m) ∧ (s.1, s.2.2) ≠ (m, j) := by
  obtain ⟨before, after, he, hafter⟩ := h
  rcases List.eq_nil_or_concat after with rfl | ⟨after, s', rfl⟩
  · obtain ⟨-, hs⟩ := List.append_inj' he rfl
    exact .inl (List.singleton_inj.1 hs)
  · rw [List.concat_eq_append, ← List.cons_append, ← List.append_assoc] at he
    obtain ⟨rfl, hs⟩ := List.append_inj' he rfl
    cases hs
    exact .inr ⟨⟨before, after, rfl, fun s hs => hafter s (by simp [hs])⟩, hafter s (by simp)⟩

end ParseChart.Cyk
