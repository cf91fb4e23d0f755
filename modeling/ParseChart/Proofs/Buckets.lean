import ParseChart.Buckets
/-!
# What buckets hold

`Keyed` says that keys are pairwise different and each element is filed under a key of its own. It holds
of what was filed by key alone, and then `get` is a filter of all elements.
-/

namespace ParseChart.Buckets

variable {κ α : Type} [BEq κ]

theorem mem_elems_add {key : κ} {x y : α} {bs : Buckets κ α} : y ∈ elems (add key x bs) ↔ y ∈ elems bs ∨ y = x := by
  rw [(elems_add_perm key x bs).mem_iff, List.mem_append, List.mem_singleton]

theorem nodup_elems_add {key : κ} {x : α} {bs : Buckets κ α} (h : (elems bs).Nodup) (hx : x ∉ elems bs) :
    (elems (add key x bs)).Nodup := by
  rw [(elems_add_perm key x bs).nodup_iff, List.nodup_append]
  exact ⟨h, by simp, fun y hy z hz => by rw [List.mem_singleton.1 hz]; exact ne_of_mem_of_not_mem hy hx⟩

theorem mem_elems_addAll {key? : α → Option κ} {xs : List α} {y : α} {bs : Buckets κ α} :
    y ∈ elems (addAll key? xs bs) ↔ y ∈ elems bs ∨ y ∈ xs ∧ (key? y).isSome = true := by
  induction xs generalizing bs with
  | nil => simp [addAll]
  | cons x xs ih =>
    rw [addAll, List.foldl_cons, ← addAll, ih, List.mem_cons]
    cases hx : key? x with
    | none =>
      have hne : (key? y).isSome = true → y ≠ x := by
        rintro hy rfl
        simp [hx] at hy
      constructor
      · rintro (h | ⟨h, hy⟩)
        · exact .inl h
        · exact .inr ⟨.inr h, hy⟩
      · rintro (h | ⟨h | h, hy⟩)
        · exact .inl h
        · exact absurd h (hne hy)
        · exact .inr ⟨h, hy⟩
    | some key =>
      rw [mem_elems_add, or_assoc]
      apply or_congr_right
      constructor
      · rintro (rfl | ⟨h, hy⟩)
        · exact ⟨.inl rfl, by simp [hx]⟩
        · exact ⟨.inr h, hy⟩
      · rintro ⟨h | h, hy⟩
        · exact .inl h
        · exact .inr ⟨h, hy⟩

/-- Filed is what has a key. -/
theorem mem_elems_ofList {key? : α → Option κ} {xs : List α} {y : α} :
    y ∈ elems (ofList key? xs) ↔ y ∈ xs ∧ (key? y).isSome = true := by
  rw [ofList, mem_elems_addAll]
  simp [elems]

/-! ## Buckets filed by key -/

structure Keyed (key? : α → Option κ) (bs : Buckets κ α) : Prop where
  distinct : bs.Pairwise fun b b' => (b.key == b'.key) = false
  own : ∀ b ∈ bs, ∀ x ∈ b.elems, (key? x).any (b.key == ·) = true
  nonempty : ∀ b ∈ bs, b.elems ≠ []

theorem keyed_nil (key? : α → Option κ) : Keyed key? [] := ⟨.nil, by simp, by simp⟩

theorem Keyed.tail {key? : α → Option κ} {b : Bucket κ α} {rest : Buckets κ α} (h : Keyed key? (b :: rest)) :
    Keyed key? rest :=
  ⟨h.distinct.of_cons, fun c hc => h.own c (by simp [hc]), fun c hc => h.nonempty c (by simp [hc])⟩

theorem mem_add_key {key : κ} {x : α} {bs : Buckets κ α} {b : Bucket κ α} (h : b ∈ add key x bs) :
    (∃ b' ∈ bs, b'.key = b.key) ∨ b = ⟨key, [x]⟩ ∧ ∀ b' ∈ bs, (b'.key == key) = false := by
  induction bs with
  | nil => exact .inr ⟨by simpa [add] using h, by simp⟩
  | cons c rest ih =>
    simp only [add] at h
    split at h
    · rcases List.mem_cons.1 h with rfl | h
      · exact .inl ⟨c, by simp, rfl⟩
      · exact .inl ⟨b, by simp [h], rfl⟩
    · rename_i hc
      rcases List.mem_cons.1 h with rfl | h
      · exact .inl ⟨b, by simp, rfl⟩
      · rcases ih h with ⟨b', hb', he⟩ | ⟨rfl, hne⟩
        · exact .inl ⟨b', by simp [hb'], he⟩
        · exact .inr ⟨rfl, by simpa [hc] using hne⟩

variable [EquivBEq κ]

theorem Keyed.add {key? : α → Option κ} {bs : Buckets κ α} (h : Keyed key? bs) {key : κ} {x : α}
    (hx : key? x = some key) : Keyed key? (add key x bs) := by
  induction bs with
  | nil => exact ⟨by simp [Buckets.add], by simp [Buckets.add, hx], by simp [Buckets.add]⟩
  | cons b rest ih =>
    have hrest := ih h.tail
    obtain ⟨hd, ho, hn⟩ := h
    rw [Buckets.add]
    split
    · rename_i hb
      refine ⟨List.pairwise_cons.2 (List.pairwise_cons.1 hd), fun c hc y hy => ?_, fun c hc => ?_⟩
      · rcases List.mem_cons.1 hc with rfl | hc
        · rcases List.mem_append.1 hy with hy | hy
          · exact ho b (by simp) y hy
          · rw [List.mem_singleton] at hy
            subst hy
            simpa [hx] using hb
        · exact ho c (by simp [hc]) y hy
      · rcases List.mem_cons.1 hc with rfl | hc
        · simp
        · exact hn c (by simp [hc])
    · rename_i hb
      refine ⟨List.pairwise_cons.2 ⟨fun c hc => ?_, hrest.distinct⟩, fun c hc y hy => ?_, fun c hc => ?_⟩
      · rcases mem_add_key hc with ⟨b', hb', he⟩ | ⟨rfl, -⟩
        · rw [← he]
          exact (List.pairwise_cons.1 hd).1 b' hb'
        · simpa using hb
      · rcases List.mem_cons.1 hc with rfl | hc
        · exact ho c (by simp) y hy
        · exact hrest.own c hc y hy
      · rcases List.mem_cons.1 hc with rfl | hc
        · exact hn c (by simp)
        · exact hrest.nonempty c hc

/-- An element has a key iff its bucket has it. -/
theorem Keyed.any_key {key? : α → Option κ} {bs : Buckets κ α} (h : Keyed key? bs) {b : Bucket κ α} (hb : b ∈ bs)
    {x : α} (hx : x ∈ b.elems) (key : κ) : (key? x).any (· == key) = (b.key == key) := by
  obtain ⟨k, hk, he⟩ := Option.any_eq_true _ _ |>.1 (h.own b hb x hx)
  rw [hk, Option.any_some, BEq.congr_left he]

/-- Behind the bucket of a key no element has it. -/
theorem Keyed.none_behind {key? : α → Option κ} {b : Bucket κ α} {rest : Buckets κ α} (h : Keyed key? (b :: rest))
    {key : κ} (hb : (b.key == key) = true) {y : α} (hy : y ∈ elems rest) : (key? y).any (· == key) = false := by
  obtain ⟨c, hc, hyc⟩ := List.mem_flatMap.1 hy
  rw [h.any_key (List.mem_cons_of_mem b hc) hyc, ← Bool.not_eq_true]
  intro hck
  have hbc := (List.pairwise_cons.1 h.distinct).1 c hc
  rw [BEq.trans hb (BEq.symm hck)] at hbc
  cases hbc

/-- Under a key stand, in order, the elements that have it. -/
theorem Keyed.get_eq_filter {key? : α → Option κ} {bs : Buckets κ α} (h : Keyed key? bs) (key : κ) :
    get key bs = (elems bs).filter fun x => (key? x).any (· == key) := by
  induction bs with
  | nil => rfl
  | cons b rest ih =>
    have hfirst : ∀ x ∈ b.elems, (key? x).any (· == key) = (b.key == key) := fun x hx => h.any_key (by simp) hx key
    rw [get, elems, List.flatMap_cons, List.filter_append, ← elems]
    split
    · rename_i hb
      have hall : b.elems.filter (fun x => (key? x).any (· == key)) = b.elems :=
        List.filter_eq_self.2 fun x hx => (hfirst x hx).trans hb
      have hnone : (elems rest).filter (fun x => (key? x).any (· == key)) = [] :=
        List.filter_eq_nil_iff.2 fun x hx => Bool.not_eq_true _ ▸ h.none_behind hb hx
      rw [hall, hnone, List.append_nil]
    · rename_i hb
      have hnone : b.elems.filter (fun x => (key? x).any (· == key)) = [] :=
        List.filter_eq_nil_iff.2 fun x hx => by rwa [hfirst x hx]
      rw [hnone, List.nil_append, ih h.tail]

theorem Keyed.addAll {key? : α → Option κ} {bs : Buckets κ α} (h : Keyed key? bs) (xs : List α) :
    Keyed key? (addAll key? xs bs) := by
  induction xs generalizing bs with
  | nil => exact h
  | cons x xs ih =>
    rw [Buckets.addAll, List.foldl_cons, ← Buckets.addAll]
    cases hx : key? x with
    | none => exact ih h
    | some key => exact ih (h.add hx)

theorem keyed_ofList (key? : α → Option κ) (xs : List α) : Keyed key? (ofList key? xs) := (keyed_nil key?).addAll xs

omit [EquivBEq κ] in
/-- The keys are those of the elements. -/
theorem Keyed.mem_keys [LawfulBEq κ] {key? : α → Option κ} {bs : Buckets κ α} (h : Keyed key? bs) {key : κ} :
    key ∈ keys bs ↔ ∃ x ∈ elems bs, key? x = some key := by
  constructor
  · intro hk
    obtain ⟨b, hb, rfl⟩ := List.mem_map.1 hk
    obtain ⟨x, hx⟩ := List.exists_mem_of_ne_nil _ (h.nonempty b hb)
    have := h.own b hb x hx
    refine ⟨x, List.mem_flatMap.2 ⟨b, hb, hx⟩, ?_⟩
    cases hk : key? x <;> simp_all
  · rintro ⟨x, hx, hk⟩
    obtain ⟨b, hb, hxb⟩ := List.mem_flatMap.1 hx
    have := h.own b hb x hxb
    rw [hk] at this
    exact List.mem_map.2 ⟨b, hb, by simpa using this⟩

end ParseChart.Buckets
