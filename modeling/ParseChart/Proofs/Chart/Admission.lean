import ParseChart.Proofs.Chart.Twins
/-!
# What a chart admits

An item is unfit for any chart if it lacks an id or an end of its span, or has one that cannot serve; else
a chart refuses it only if its span lies off the chart. Insertion and the question whether an item is there
place the item first and so refuse the same items for the same reason, before anything is changed.
-/

namespace ParseChart

open ChartItem

variable {ι : Type} [ChartItem ι]

namespace ChartItem

/-- The item has an id and lies between two integers, which may be off the chart. -/
structure Fit (x : ι) (i j : Int) : Prop where
  id : ∃ id, id? x = some id ∧ id.isId = true
  start : (start? x).bind Value.int? = some i
  stop : (stop? x).bind Value.int? = some j

variable {x : ι} {i j : Int}

theorem Fit.unique {i' j' : Int} (h : Fit x i j) (h' : Fit x i' j') : i = i' ∧ j = j' :=
  ⟨Option.some.inj (h.start.symm.trans h'.start), Option.some.inj (h.stop.symm.trans h'.stop)⟩

end ChartItem

namespace Chart

variable {c : Chart ι} {x y : ι} {p : Place}

theorem Filed.holds_put_self (h : c.Filed) (hp : c.place x = .ok p) : (c.put x).holds p x = true :=
  h.holds_of_offered hp hp (twin_refl x) []

/-- Whether an item is found does not change by insertion of one that is not equal to it. -/
theorem Filed.holds_put_of_ne (h : c.Filed) (hp : c.place y = .ok p) (hne : (x == y) = false) :
    (c.put x).holds p y = c.holds p y := by
  have hp' : (c.put x).place y = .ok p := (place_congr (length_put c x) y).trans hp
  rw [Bool.eq_iff_iff, (h.put x).holds_iff_twin hp', h.holds_iff_twin hp]
  constructor
  · rintro ⟨z, hz, htwin⟩
    rcases h.mem_put.1 hz with hz | ⟨rfl, -⟩
    · exact ⟨z, hz, htwin⟩
    · exact absurd htwin.1 (by simp [hne])
  · rintro ⟨z, hz, htwin⟩
    exact ⟨z, h.mem_put.2 (.inl hz), htwin⟩

/-- If no two of the offered items are equal but different, those that are added are those that were not found before. -/
theorem Filed.mem_newOf_iff {xs : List ι} (h : c.Filed) (hxs : ∀ x ∈ xs, ∃ p, c.place x = .ok p)
    (heq : ∀ x ∈ xs, ∀ y ∈ xs, (x == y) = true → x = y) : x ∈ c.newOf xs ↔ x ∈ xs ∧ c.adds x = true := by
  induction xs generalizing c with
  | nil => simp [newOf]
  | cons y xs ih =>
    have hnew := ih (h.put y) (fun z hz => by
      rw [place_congr (length_put c y)]
      exact hxs z (List.mem_cons_of_mem y hz)) fun z hz u hu => heq z (List.mem_cons_of_mem y hz) u (List.mem_cons_of_mem y hu)
    have hcons : x ∈ c.newOf (y :: xs) ↔ x = y ∧ c.adds y = true ∨ x ∈ xs ∧ (c.put y).adds x = true := by
      rw [newOf, ← hnew]
      cases c.adds y <;> simp
    rw [hcons, List.mem_cons]
    by_cases hxy : x = y
    · -- Offered once more, it is not added.
      subst hxy
      obtain ⟨p, hp⟩ := hxs x (by simp)
      have hagain : (c.put x).adds x = false := by
        rw [adds_of_place ((place_congr (length_put c x) x).trans hp), h.holds_put_self hp]
        rfl
      simp [hagain]
    · simp only [hxy, false_and, false_or]
      apply and_congr_right
      intro hx
      obtain ⟨p, hp⟩ := hxs x (List.mem_cons_of_mem y hx)
      have hne : (y == x) = false := by
        rw [← Bool.not_eq_true]
        intro he
        exact hxy (heq y (by simp) x (List.mem_cons_of_mem y hx) he).symm
      rw [adds_of_place ((place_congr (length_put c y) x).trans hp), adds_of_place hp, h.holds_put_of_ne hp hne]

end Chart

namespace ChartM

variable {x y : ι} {s : Logged ι} {p : Place}

end ChartM

end ParseChart
