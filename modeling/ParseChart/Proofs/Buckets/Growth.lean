import Mathlib.Data.List.Basic
import ParseChart.Proofs.Buckets
/-!
# Buckets that only grow

Filing keeps what was filed where it is: `GrowsTo` compares the buckets of two moments. `HasOnce` says
that an element stands in one bucket only and only once there, and `Distinct` that no bucket holds two
elements that `==` takes for equal; what is filed only if its bucket holds no equal keeps that.
-/

namespace ParseChart.Buckets

variable {κ α : Type}

/-! ## Growth -/

/-- The buckets are there later in the same places under the same keys, each with its elements in front. -/
inductive GrowsTo : Buckets κ α → Buckets κ α → Prop
  | nil (bs : Buckets κ α) : GrowsTo [] bs
  | cons {b b' : Bucket κ α} {bs bs' : Buckets κ α} : b'.key = b.key → b.elems <+: b'.elems → GrowsTo bs bs' →
      GrowsTo (b :: bs) (b' :: bs')

theorem growsTo_refl (bs : Buckets κ α) : GrowsTo bs bs := by
  induction bs with
  | nil => exact .nil _
  | cons b bs ih => exact .cons rfl (List.prefix_refl _) ih

theorem GrowsTo.trans {bs bs' bs'' : Buckets κ α} (h : GrowsTo bs bs') (h' : GrowsTo bs' bs'') : GrowsTo bs bs'' := by
  induction h generalizing bs'' with
  | nil => exact .nil _
  | cons hk he _ ih =>
    cases h' with
    | cons hk' he' h' => exact .cons (hk'.trans hk) (he.trans he') (ih h')

theorem GrowsTo.mem_elems {bs bs' : Buckets κ α} (h : GrowsTo bs bs') {x : α} (hx : x ∈ elems bs) : x ∈ elems bs' := by
  induction h with
  | nil => cases hx
  | cons _ he _ ih =>
    rw [elems, List.flatMap_cons, List.mem_append] at hx ⊢
    exact hx.imp (fun hx => he.subset hx) ih

variable [BEq κ]

theorem growsTo_add (key : κ) (x : α) (bs : Buckets κ α) : GrowsTo bs (add key x bs) := by
  induction bs with
  | nil => exact .nil _
  | cons b bs ih =>
    rw [add]
    split
    · exact .cons rfl (List.prefix_append _ _) (growsTo_refl bs)
    · exact .cons rfl (List.prefix_refl _) ih

theorem length_elems_add (key : κ) (x : α) (bs : Buckets κ α) :
    (elems (add key x bs)).length = (elems bs).length + 1 := by
  rw [(elems_add_perm key x bs).length_eq, List.length_append, List.length_singleton]

/-! ## Single elements -/

/-- The element stands in a bucket of the key, once, and in no other. -/
def HasOnce (key : κ) (x : α) (bs : Buckets κ α) : Prop :=
  ∃ before b after, bs = before ++ b :: after ∧ (b.key == key) = true ∧
    (∃ front back, b.elems = front ++ x :: back ∧ x ∉ front ++ back) ∧ ∀ c ∈ before ++ after, x ∉ c.elems

theorem Keyed.hasOnce {key? : α → Option κ} {bs : Buckets κ α} (h : Keyed key? bs) (hn : (elems bs).Nodup) {x : α}
    (hx : x ∈ elems bs) {key : κ} (hk : key? x = some key) : HasOnce key x bs := by
  obtain ⟨b, hb, hxb⟩ := List.mem_flatMap.1 hx
  have hkey := h.own b hb x hxb
  rw [hk] at hkey
  obtain ⟨before, after, rfl⟩ := List.append_of_mem hb
  have hn : (b.elems ++ elems (before ++ after)).Nodup :=
    (List.perm_middle.flatMap_right Bucket.elems).nodup_iff.1 hn
  obtain ⟨hnb, -, hdisj⟩ := List.nodup_append.1 hn
  obtain ⟨front, back, he⟩ := List.append_of_mem hxb
  refine ⟨before, b, after, rfl, hkey, ⟨front, back, he, ?_⟩, fun c hc hxc => ?_⟩
  · rw [he, List.perm_middle.nodup_iff] at hnb
    exact (List.nodup_cons.1 hnb).1
  · exact hdisj x hxb x (List.mem_flatMap.2 ⟨c, hc, hxc⟩) rfl

/-! ## Equal elements -/

/-- No bucket holds two equal elements. -/
def Distinct [BEq α] (bs : Buckets κ α) : Prop := ∀ b ∈ bs, b.elems.Pairwise fun x y => (x == y) = false

omit [BEq κ] in
theorem distinct_of_nodup [BEq α] {bs : Buckets κ α} (h : bs.elems.Nodup)
    (heq : ∀ x ∈ bs.elems, ∀ y ∈ bs.elems, (x == y) = true → x = y) : Distinct bs := by
  intro b hb
  have hmem : ∀ {x}, x ∈ b.elems → x ∈ bs.elems := fun hx => List.mem_flatMap.2 ⟨b, hb, hx⟩
  refine ((List.pairwise_flatMap.1 h).1 b hb).imp_of_mem fun {x y} hx hy hne => ?_
  rw [← Bool.not_eq_true]
  exact fun he => hne (heq x (hmem hx) y (hmem hy) he)

theorem Distinct.add [BEq α] {bs : Buckets κ α} (h : Distinct bs) {key : κ} {x : α}
    (hx : ∀ y ∈ get key bs, (y == x) = false) : Distinct (add key x bs) := by
  induction bs with
  | nil => simp [Distinct, Buckets.add]
  | cons b rest ih =>
    obtain ⟨hb, hrest⟩ := List.forall_mem_cons.1 h
    rw [Buckets.add]
    rw [get] at hx
    split at hx
    · rename_i hk
      rw [if_pos hk]
      refine List.forall_mem_cons.2 ⟨List.pairwise_append.2 ⟨hb, by simp, fun y hy z hz => ?_⟩, hrest⟩
      rw [List.mem_singleton.1 hz]
      exact hx y hy
    · rename_i hk
      rw [if_neg hk]
      exact List.forall_mem_cons.2 ⟨hb, ih hrest hx⟩

end ParseChart.Buckets
