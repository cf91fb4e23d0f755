import Mathlib.Data.List.Basic
import ParseChart.Proofs.Buckets
/-!
# The order of what is filed

Filing an element puts it, in the list of all elements, behind the last one with an equal key, or at the
end if there is none. So the order can be followed in that list alone, also in a part of it that has an
element together with those of equal keys, and in a copy.
-/

namespace ParseChart.Buckets

variable {κ α β : Type}

/-- Put `x` behind the last element that `q` takes, or at the end. -/
def insertBehind (q : α → Bool) (x : α) : List α → List α
  | [] => [x]
  | y :: ys => if q y && !ys.any q then y :: x :: ys else y :: insertBehind q x ys

variable {q t : α → Bool} {x y : α} {xs ys : List α}

theorem insertBehind_of_none (h : ∀ y ∈ ys, q y = false) : insertBehind q x ys = ys ++ [x] := by
  induction ys with
  | nil => rfl
  | cons y ys ih => simp [insertBehind, h y (by simp), ih fun z hz => h z (by simp [hz])]

/-- Elements in front that are not taken make no difference. -/
theorem insertBehind_append_of_none (h : ∀ y ∈ xs, q y = false) :
    insertBehind q x (xs ++ ys) = xs ++ insertBehind q x ys := by
  induction xs with
  | nil => rfl
  | cons y xs ih => simp [insertBehind, h y (by simp), ih fun z hz => h z (by simp [hz])]

theorem insertBehind_of_last (hy : q y = true) (hys : ∀ z ∈ ys, q z = false) :
    insertBehind q x (xs ++ y :: ys) = xs ++ y :: x :: ys := by
  induction xs with
  | nil =>
    have hnone : ys.any q = false := by simpa using hys
    simp [insertBehind, hy, hnone]
  | cons z xs ih =>
    have hany : (xs ++ y :: ys).any q = true := by simp [hy]
    rw [List.cons_append, insertBehind, hany, ih]
    simp

theorem insertBehind_of_all (h : ∀ y ∈ ys, q y = true) : insertBehind q x ys = ys ++ [x] := by
  rcases List.eq_nil_or_concat' ys with rfl | ⟨before, y, rfl⟩
  · rfl
  · rw [insertBehind_of_last (h y (by simp)) (by simp), List.append_assoc]
    rfl

theorem none_or_last (q : α → Bool) (ys : List α) :
    (∀ y ∈ ys, q y = false) ∨ ∃ before y after, ys = before ++ y :: after ∧ q y = true ∧ ∀ z ∈ after, q z = false := by
  induction ys with
  | nil => exact .inl (by simp)
  | cons y ys ih =>
    rcases ih with hnone | ⟨before, z, after, rfl, hz, hafter⟩
    · cases hy : q y with
      | true => exact .inr ⟨[], y, ys, rfl, hy, hnone⟩
      | false => exact .inl (List.forall_mem_cons.2 ⟨hy, hnone⟩)
    · exact .inr ⟨y :: before, z, after, rfl, hz, hafter⟩

/-- In a part of the list that has all elements like `x` or none, `x` comes to stand in the same order. -/
theorem filter_insertBehind (h : ∀ y ∈ ys, q y = true → t y = t x) :
    (insertBehind q x ys).filter t = if t x then insertBehind q x (ys.filter t) else ys.filter t := by
  rcases none_or_last q ys with hnone | ⟨before, y, after, rfl, hy, hafter⟩
  · rw [insertBehind_of_none hnone, insertBehind_of_none fun y hy => hnone y (List.mem_of_mem_filter hy),
      List.filter_append]
    cases hx : t x <;> simp [hx]
  · have hty := h y (by simp) hy
    rw [insertBehind_of_last hy hafter, List.filter_append, List.filter_append]
    cases hx : t x with
    | true =>
      rw [hx] at hty
      rw [if_pos rfl, List.filter_cons_of_pos hty, List.filter_cons_of_pos hx, List.filter_cons_of_pos hty,
        insertBehind_of_last hy fun z hz => hafter z (List.mem_of_mem_filter hz)]
    | false => simp [hx, hty]

theorem map_insertBehind {f : α → β} {q' : β → Bool} (h : ∀ y ∈ ys, q' (f y) = q y) :
    (insertBehind q x ys).map f = insertBehind q' (f x) (ys.map f) := by
  have hnone : ∀ {zs : List α}, (∀ z ∈ zs, z ∈ ys ∧ q z = false) → ∀ z ∈ zs.map f, q' z = false := by
    intro zs hzs z hz
    obtain ⟨u, hu, rfl⟩ := List.mem_map.1 hz
    exact (h u (hzs u hu).1).trans (hzs u hu).2
  rcases none_or_last q ys with hq | ⟨before, y, after, rfl, hy, hafter⟩
  · rw [insertBehind_of_none hq, insertBehind_of_none (hnone fun z hz => ⟨hz, hq z hz⟩), List.map_append]
    rfl
  · rw [insertBehind_of_last hy hafter, List.map_append, List.map_append, List.map_cons, List.map_cons, List.map_cons,
      insertBehind_of_last ((h y (by simp)).trans hy) (hnone fun z hz => ⟨by simp [hz], hafter z hz⟩)]

theorem insertBehind_congr {q' : α → Bool} (h : ∀ y ∈ ys, q y = q' y) : insertBehind q x ys = insertBehind q' x ys := by
  have hmap := map_insertBehind (x := x) (f := id) fun y hy => (h y hy).symm
  rwa [List.map_id, List.map_id] at hmap

/-- Where an element is filed. -/
theorem Keyed.elems_add [BEq κ] [EquivBEq κ] {key? : α → Option κ} {bs : Buckets κ α} (h : Keyed key? bs) (key : κ)
    (x : α) : elems (Buckets.add key x bs) = insertBehind (fun y => (key? y).any (· == key)) x (elems bs) := by
  induction bs with
  | nil => rfl
  | cons b rest ih =>
    have hfirst : ∀ y ∈ b.elems, (key? y).any (· == key) = (b.key == key) := fun y hy => h.any_key (by simp) hy key
    have hcons : elems (b :: rest) = b.elems ++ elems rest := List.flatMap_cons
    rw [Buckets.add, hcons]
    split
    · rename_i hb
      -- The bucket is not empty, so its last element is the last one of its key.
      obtain ⟨front, y, he⟩ := (List.eq_nil_or_concat' b.elems).resolve_left (h.nonempty b (by simp))
      have hy : (key? y).any (· == key) = true := (hfirst y (by simp [he])).trans hb
      have hlast : insertBehind (fun y => (key? y).any (· == key)) x (front ++ y :: elems rest) =
          front ++ y :: x :: elems rest := insertBehind_of_last hy fun z hz => h.none_behind hb hz
      simp only [he, elems, List.flatMap_cons, List.append_assoc, List.singleton_append] at hlast ⊢
      exact hlast.symm
    · rename_i hb
      rw [insertBehind_append_of_none fun y hy => (hfirst y hy).trans (by simpa using hb), ← ih h.tail]
      rfl

end ParseChart.Buckets
