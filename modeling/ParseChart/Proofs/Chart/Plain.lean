import ParseChart.Proofs.Chart.Growth
import ParseChart.Proofs.Item
/-!
# Charts of plain items

Between plain items `==` is equality. So a chart of them finds what it holds and nothing else, and of the
plain items that it is offered it adds exactly those that are not there yet.
-/

namespace ParseChart.Chart

variable {c : Chart Item}

/-- All items are plain. -/
def Plain (c : Chart Item) : Prop := ∀ x ∈ c, x.plain = true

theorem Filed.adds_iff (h : c.Filed) (hc : c.Plain) {x : Item} (hx : x.plain = true) {p : Place}
    (hp : c.place x = .ok p) : c.adds x = true ↔ x ∉ c := by
  refine ⟨h.not_mem_of_adds hp, fun hn => ?_⟩
  rw [adds_of_place hp, Bool.not_eq_true', ← Bool.not_eq_true, h.holds_iff]
  rintro ⟨y, hy, -, he⟩
  have hyc := h.mem_of_rowFrom hy
  exact hn (Item.eq_of_beq (hc y hyc) hx he ▸ hyc)

theorem Filed.plain_put (h : c.Filed) (hc : c.Plain) {x : Item} (hx : x.plain = true) : (c.put x).Plain := by
  intro y hy
  rcases h.mem_put.1 hy with hy | ⟨rfl, -⟩
  · exact hc y hy
  · exact hx

/-- What is offered and has a place is on the chart afterwards. -/
theorem Filed.mem_putAll_iff (h : c.Filed) (hc : c.Plain) {xs : List Item}
    (hxs : ∀ x ∈ xs, x.plain = true ∧ ∃ p, c.place x = .ok p) {y : Item} : y ∈ c.putAll xs ↔ y ∈ c ∨ y ∈ xs := by
  induction xs generalizing c with
  | nil => simp [Chart.putAll]
  | cons x xs ih =>
    obtain ⟨hx, p, hp⟩ := hxs x (by simp)
    rw [Chart.putAll, List.foldl_cons, ← Chart.putAll, ih (h.put x) (h.plain_put hc hx) fun z hz => ?_, h.mem_put,
      h.adds_iff hc hx hp, List.mem_cons]
    · by_cases hy : y = x
      · subst hy
        by_cases y ∈ c <;> simp [*]
      · simp [hy]
    · rw [place_congr (length_put c x)]
      exact hxs z (by simp [hz])

/-- Of plain items, different from each other, all are new that the chart does not hold. -/
theorem Filed.newOf_eq_self (h : c.Filed) (hc : c.Plain) {xs : List Item} (hn : xs.Nodup)
    (hxs : ∀ x ∈ xs, (x.plain = true ∧ ∃ p, c.place x = .ok p) ∧ x ∉ c) : c.newOf xs = xs := by
  induction xs generalizing c with
  | nil => rfl
  | cons x xs ih =>
    obtain ⟨⟨hx, p, hp⟩, hnew⟩ := hxs x (by simp)
    obtain ⟨hnot, hn⟩ := List.nodup_cons.1 hn
    rw [newOf, if_pos ((h.adds_iff hc hx hp).2 hnew), ih (h.put x) (h.plain_put hc hx) hn fun y hy => ?_]
    obtain ⟨hy', hynew⟩ := hxs y (List.mem_cons_of_mem x hy)
    rw [place_congr (length_put c x), h.mem_put]
    refine ⟨hy', ?_⟩
    rintro (hyc | ⟨rfl, -⟩)
    · exact hynew hyc
    · exact hnot hy

/-- Plain items are equal only if they are the same. -/
theorem Filed.distinct_of_plain (h : c.Filed) (hc : c.Plain) : c.Distinct where
  leaving i := Buckets.distinct_of_nodup (h.nodup_from i) fun _ hx _ hy =>
    Item.eq_of_beq (hc _ (h.mem_of_rowFrom hx)) (hc _ (h.mem_of_rowFrom hy))
  reaching j := Buckets.distinct_of_nodup (h.nodup_to j) fun _ hx _ hy => Item.eq_of_beq (hc _ ⟨j, hx⟩) (hc _ ⟨j, hy⟩)

end ParseChart.Chart
