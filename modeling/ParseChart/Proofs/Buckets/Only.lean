import Mathlib.Data.List.Basic
import ParseChart.Proofs.Buckets
/-!
# Some of the buckets

`only q` drops the buckets without an element that `q` takes. Where elements of one bucket are taken or
not together (`Uniform`), that filters the elements, and filing an element that is not taken makes no
difference to what is left.
-/

namespace ParseChart.Buckets

variable {κ α : Type} {q : α → Bool}

def only (q : α → Bool) (bs : Buckets κ α) : Buckets κ α := bs.filter fun b => b.elems.any q

/-- The elements of a bucket are all taken, or none is. -/
def Uniform (q : α → Bool) (bs : Buckets κ α) : Prop := ∀ b ∈ bs, ∀ x ∈ b.elems, ∀ y ∈ b.elems, q x = q y

theorem Uniform.any_eq {bs : Buckets κ α} (h : Uniform q bs) {b : Bucket κ α} (hb : b ∈ bs) {x : α}
    (hx : x ∈ b.elems) : b.elems.any q = q x := by
  rw [Bool.eq_iff_iff, List.any_eq_true]
  constructor
  · rintro ⟨y, hy, hq⟩
    exact (h b hb x hx y hy).trans hq
  · exact fun hq => ⟨x, hx, hq⟩

theorem Uniform.elems_only {bs : Buckets κ α} (h : Uniform q bs) : elems (only q bs) = (elems bs).filter q := by
  induction bs with
  | nil => rfl
  | cons b rest ih =>
    have hrest := ih fun c hc => h c (by simp [hc])
    have hb : ∀ x ∈ b.elems, b.elems.any q = q x := fun x hx => h.any_eq (by simp) hx
    have hcons : elems (b :: rest) = b.elems ++ elems rest := List.flatMap_cons
    rw [hcons, List.filter_append, ← hrest]
    cases hq : b.elems.any q with
    | true =>
      rw [List.filter_eq_self.2 fun x hx => (hb x hx).symm.trans hq]
      simp [only, elems, hq]
    | false =>
      rw [List.filter_eq_nil_iff.2 fun x hx => by rw [← hb x hx, hq]; simp]
      simp [only, hq]

variable [BEq κ]

/-- Filing an element that is not taken makes no difference. -/
theorem only_add {key : κ} {x : α} {bs : Buckets κ α} (h : Uniform q (add key x bs)) (hn : ∀ b ∈ bs, b.elems ≠ []) :
    only q (add key x bs) = if q x then add key x (only q bs) else only q bs := by
  induction bs with
  | nil => cases hq : q x <;> simp [add, only, hq]
  | cons b rest ih =>
    rw [add] at h ⊢
    split
    · rename_i hb
      rw [if_pos hb] at h
      -- The bucket is not empty, so `x` is taken iff its other elements are.
      obtain ⟨y, hy⟩ := List.exists_mem_of_ne_nil _ (hn b (by simp))
      have hxy : q y = q x := h _ (List.mem_cons_self ..) y (by simp [hy]) x (by simp)
      have hany : b.elems.any q = q x := by
        rw [← hxy, Bool.eq_iff_iff, List.any_eq_true]
        constructor
        · rintro ⟨z, hz, hq⟩
          exact (h _ (List.mem_cons_self ..) y (by simp [hy]) z (by simp [hz])).trans hq
        · exact fun hq => ⟨y, hy, hq⟩
      cases hq : q x <;> simp [only, hany, hq, add, hb]
    · rename_i hb
      rw [if_neg hb] at h
      have hrest := ih (fun c hc => h c (by simp [hc])) fun c hc => hn c (by simp [hc])
      unfold only at hrest ⊢
      rw [List.filter_cons, hrest, List.filter_cons]
      cases q x <;> cases b.elems.any q <;> simp [add, hb]

theorem Keyed.only {key? : α → Option κ} {bs : Buckets κ α} (h : Keyed key? bs) : Keyed key? (only q bs) where
  distinct := h.distinct.filter _
  own b hb := h.own b (List.mem_of_mem_filter hb)
  nonempty b hb := h.nonempty b (List.mem_of_mem_filter hb)

/-- Buckets are uniform if elements with equal keys are taken or not together. -/
theorem Keyed.uniform [EquivBEq κ] {key? : α → Option κ} {bs : Buckets κ α} (h : Keyed key? bs)
    (hq : ∀ x ∈ elems bs, ∀ y ∈ elems bs, ∀ k k', key? x = some k → key? y = some k' → (k == k') = true → q x = q y) :
    Uniform q bs := by
  intro b hb x hx y hy
  have hkx := h.own b hb x hx
  have hky := h.own b hb y hy
  obtain ⟨k, hk, hbk⟩ := Option.any_eq_true _ _ |>.1 hkx
  obtain ⟨k', hk', hbk'⟩ := Option.any_eq_true _ _ |>.1 hky
  exact hq x (List.mem_flatMap.2 ⟨b, hb, hx⟩) y (List.mem_flatMap.2 ⟨b, hb, hy⟩) k k' hk hk'
    (BEq.trans (BEq.symm hbk) hbk')

end ParseChart.Buckets
