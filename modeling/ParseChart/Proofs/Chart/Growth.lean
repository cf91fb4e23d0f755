import Mathlib.Algebra.Ring.Nat
import ParseChart.Chart.Query
import ParseChart.Proofs.Buckets.Growth
import ParseChart.Proofs.Chart.Filing
/-!
# How charts grow

A chart only grows by insertion, by one item in each index for each insertion that adds. `Sound` says in
full how a chart stands for its items, and every chart made by insertions is sound.
-/

namespace ParseChart

open ChartItem

namespace Chart

variable {ι : Type}

/-- The sizes of all buckets of an index, together. -/
def size (rows : List (Row ι)) : Nat := (rows.map fun row => (row.map fun b => b.elems.length).sum).sum

theorem size_modify {rows : List (Row ι)} {i : Nat} (hi : i < rows.length) (key : Value) (x : ι) :
    size (rows.modify i (Buckets.add key x)) = size rows + 1 := by
  have hrow : ∀ row : Row ι, (row.map fun b => b.elems.length).sum = row.elems.length := fun row =>
    List.length_flatMap.symm
  induction rows generalizing i with
  | nil => cases hi
  | cons row rows ih =>
    cases i with
    | zero =>
      simp only [size, List.modify_zero_cons, List.map_cons, List.sum_cons, hrow, Buckets.length_elems_add]
      omega
    | succ i =>
      have := ih (i := i) (by simpa using hi)
      simp only [size, List.modify_succ_cons, List.map_cons, List.sum_cons] at this ⊢
      omega

theorem itemCount_eq_size (c : Chart ι) : c.itemCount = size c.incoming := by
  unfold itemCount counts size
  rw [← List.sum_eq_foldr]
  congr 1
  apply List.map_congr_left
  intro row _
  exact List.length_flatMap

/-! ## Growth -/

/-- In both indices all that was filed is where it was. -/
structure GrowsTo (c c' : Chart ι) : Prop where
  length : c'.length = c.length
  leaving : ∀ i, (c.rowFrom i).GrowsTo (c'.rowFrom i)
  reaching : ∀ j, (c.rowTo j).GrowsTo (c'.rowTo j)

variable {c c' c'' : Chart ι}

theorem growsTo_refl (c : Chart ι) : c.GrowsTo c :=
  ⟨rfl, fun _ => Buckets.growsTo_refl _, fun _ => Buckets.growsTo_refl _⟩

theorem GrowsTo.trans (h : c.GrowsTo c') (h' : c'.GrowsTo c'') : c.GrowsTo c'' :=
  ⟨h'.length.trans h.length, fun i => (h.leaving i).trans (h'.leaving i), fun j => (h.reaching j).trans (h'.reaching j)⟩

variable [ChartItem ι]

theorem Filed.growsTo_put (h : c.Filed) (x : ι) : c.GrowsTo (c.put x) := by
  cases hp : c.place x with
  | error cause =>
    rw [(put_of_error hp).1]
    exact growsTo_refl c
  | ok p =>
    obtain ⟨-, -, -, hle, hlen⟩ := place_eq_ok hp
    rw [put_of_place hp]
    split
    · refine ⟨rfl, fun i => ?_, fun j => ?_⟩
      · rw [rowFrom_file (by rw [h.outgoing_length]; omega)]
        split
        · exact Buckets.growsTo_add _ _ _
        · exact Buckets.growsTo_refl _
      · rw [rowTo_file (by rw [h.incoming_length]; omega)]
        split
        · exact Buckets.growsTo_add _ _ _
        · exact Buckets.growsTo_refl _
    · exact growsTo_refl c

theorem Filed.growsTo_putAll (h : c.Filed) (xs : List ι) : c.GrowsTo (c.putAll xs) := by
  induction xs generalizing c with
  | nil => exact growsTo_refl c
  | cons x xs ih => exact (h.growsTo_put x).trans (ih (h.put x))

/-- An insertion that adds makes each index larger by one, and any other leaves the chart as it is. -/
theorem Filed.size_put (h : c.Filed) (x : ι) :
    size (c.put x).outgoing = size c.outgoing + (c.adds x).toNat ∧
      size (c.put x).incoming = size c.incoming + (c.adds x).toNat := by
  cases hp : c.place x with
  | error cause => simp [put_of_error hp]
  | ok p =>
    obtain ⟨-, -, -, hle, hlen⟩ := place_eq_ok hp
    rw [put_of_place hp]
    cases c.adds x with
    | false => simp
    | true =>
      exact ⟨size_modify (by rw [h.outgoing_length]; omega) _ _, size_modify (by rw [h.incoming_length]; omega) _ _⟩

theorem length_newOf_cons (c : Chart ι) (x : ι) (xs : List ι) :
    (c.newOf (x :: xs)).length = (c.adds x).toNat + ((c.put x).newOf xs).length := by
  rw [newOf]
  cases c.adds x
  · simp
  · simp [Nat.add_comm]

theorem Filed.size_putAll (h : c.Filed) (xs : List ι) :
    size (c.putAll xs).outgoing = size c.outgoing + (c.newOf xs).length ∧
      size (c.putAll xs).incoming = size c.incoming + (c.newOf xs).length := by
  induction xs generalizing c with
  | nil => simp [Chart.putAll, newOf]
  | cons x xs ih =>
    obtain ⟨hfrom, hto⟩ := ih (h.put x)
    obtain ⟨hfrom', hto'⟩ := h.size_put x
    rw [Chart.putAll, List.foldl_cons, ← Chart.putAll, length_newOf_cons]
    omega

theorem put_of_not_adds {x : ι} (h : c.adds x = false) : c.put x = c := by
  cases hp : c.place x with
  | error cause => exact (put_of_error hp).1
  | ok p => simp [put_of_place hp, h]

theorem putAll_of_newOf_nil {xs : List ι} (h : c.newOf xs = []) : c.putAll xs = c := by
  induction xs with
  | nil => rfl
  | cons x xs ih =>
    rw [newOf] at h
    split at h
    · cases h
    · rename_i hx
      have hput := put_of_not_adds (c := c) (Bool.not_eq_true _ ▸ hx)
      rw [Chart.putAll, List.foldl_cons, ← Chart.putAll, hput]
      rw [hput] at h
      exact ih h

theorem Filed.adds_of_mem (h : c.Filed) {x : ι} (hx : x ∈ c) : c.adds x = false := by
  obtain ⟨p, hp⟩ := h.place_of_mem hx
  rw [← Bool.not_eq_true]
  exact fun hadds => h.not_mem_of_adds hp hadds hx

theorem Filed.put_of_mem (h : c.Filed) {x : ι} (hx : x ∈ c) : c.put x = c := put_of_not_adds (h.adds_of_mem hx)

/-- Nothing is new of what the chart holds. -/
theorem Filed.newOf_eq_nil (h : c.Filed) {xs : List ι} (hxs : ∀ x ∈ xs, x ∈ c) : c.newOf xs = [] := by
  induction xs with
  | nil => rfl
  | cons x xs ih =>
    have hx := hxs x (by simp)
    rw [newOf, h.put_of_mem hx, ih fun y hy => hxs y (List.mem_cons_of_mem x hy), h.adds_of_mem hx]
    rfl

/-- What is new was not there, and comes once. -/
theorem Filed.newOf_fresh (h : c.Filed) (xs : List ι) : (c.newOf xs).Nodup ∧ ∀ y ∈ c.newOf xs, y ∉ c := by
  induction xs generalizing c with
  | nil => exact ⟨.nil, by simp [newOf]⟩
  | cons x xs ih =>
    obtain ⟨hn, hnot⟩ := ih (h.put x)
    rw [newOf]
    split
    · rename_i hadds
      have hx : x ∈ c.put x := h.mem_put.2 (.inr ⟨rfl, hadds⟩)
      obtain ⟨p, hp⟩ := (h.put x).place_of_mem hx
      rw [place_congr (length_put c x)] at hp
      exact ⟨List.nodup_cons.2 ⟨fun hmem => hnot x hmem hx, hn⟩,
        List.forall_mem_cons.2 ⟨h.not_mem_of_adds hp hadds, fun y hy hyc => hnot y hy (h.mem_put.2 (.inl hyc))⟩⟩
    · exact ⟨hn, fun y hy hyc => hnot y hy (h.mem_put.2 (.inl hyc))⟩

theorem putAll_append (c : Chart ι) (xs ys : List ι) : c.putAll (xs ++ ys) = (c.putAll xs).putAll ys :=
  List.foldl_append

theorem newOf_append (c : Chart ι) (xs ys : List ι) : c.newOf (xs ++ ys) = c.newOf xs ++ (c.putAll xs).newOf ys := by
  induction xs generalizing c with
  | nil => rfl
  | cons x xs ih =>
    rw [List.cons_append, newOf, newOf, ih]
    split <;> rfl

/-! ## Equal items -/

/-- Equal items lie between the same positions, whatever kinds of numbers these are. -/
theorem place_eq_of_beq {x y : ι} {p q : Place} (h : (x == y) = true) (hx : c.place x = .ok p)
    (hy : c.place y = .ok q) : p.start = q.start ∧ p.stop = q.stop := by
  obtain ⟨-, ⟨u, hu, hi⟩, ⟨v, hv, hj⟩, -⟩ := place_eq_ok hx
  obtain ⟨-, ⟨u', hu', hi'⟩, ⟨v', hv', hj'⟩, -⟩ := place_eq_ok hy
  have hstart := start_beq h
  have hstop := stop_beq h
  rw [hu, hu'] at hstart
  rw [hv, hv'] at hstop
  exact ⟨Int.natCast_inj.1 (int_eq_of_beq hstart hi hi'), Int.natCast_inj.1 (int_eq_of_beq hstop hj hj')⟩

/-- No bucket of either index holds two equal items. -/
structure Distinct (c : Chart ι) : Prop where
  leaving : ∀ i, (c.rowFrom i).Distinct
  reaching : ∀ j, (c.rowTo j).Distinct

theorem distinct_empty (n : Nat) : (empty n : Chart ι).Distinct where
  leaving i b hb := by rw [rowFrom_empty] at hb; cases hb
  reaching j b hb := by rw [rowTo_empty] at hb; cases hb

/-- Only the row where an item starts is searched for its equals, but these start there. -/
theorem Filed.distinct_put (h : c.Filed) (hd : c.Distinct) (x : ι) : (c.put x).Distinct := by
  cases hp : c.place x with
  | error cause => rwa [(put_of_error hp).1]
  | ok p =>
    obtain ⟨-, -, -, hle, hlen⟩ := place_eq_ok hp
    rw [put_of_place hp]
    split
    · rename_i hadds
      have hnone : ∀ y ∈ (c.rowFrom p.start).elems, (id? y).any (· == p.id) = true → (y == x) = false := by
        rw [adds_of_place hp, Bool.not_eq_true', ← Bool.not_eq_true, h.holds_iff] at hadds
        intro y hy hid
        rw [← Bool.not_eq_true]
        exact fun he => hadds ⟨y, hy, hid, he⟩
      refine ⟨fun i => ?_, fun j => ?_⟩
      · rw [rowFrom_file (by rw [h.outgoing_length]; omega)]
        split
        · refine (hd.leaving i).add fun y hy => ?_
          subst i
          rw [(h.keyed_from p.start).get_eq_filter, List.mem_filter] at hy
          exact hnone y hy.1 hy.2
        · exact hd.leaving i
      · rw [rowTo_file (by rw [h.incoming_length]; omega)]
        split
        · refine (hd.reaching j).add fun y hy => ?_
          rw [(h.keyed_to j).get_eq_filter, List.mem_filter] at hy
          obtain ⟨q, hq, -, hfrom⟩ := h.of_to j y hy.1
          rw [← Bool.not_eq_true]
          intro he
          rw [(place_eq_of_beq he hq hp).1] at hfrom
          exact Bool.false_ne_true ((hnone y hfrom hy.2).symm.trans he)
        · exact hd.reaching j
    · exact hd

theorem Filed.distinct_putAll (h : c.Filed) (hd : c.Distinct) (xs : List ι) : (c.putAll xs).Distinct := by
  induction xs generalizing c with
  | nil => exact hd
  | cons x xs ih => exact ih (h.put x) (h.distinct_put hd x)

/-! ## Sound charts -/

/-- The item lies between integer positions on the chart and stands in the two rows that these name, under its own
id, once in each and nowhere else. -/
def FiledOnce (c : Chart ι) (x : ι) : Prop :=
  ∃ (id : Value) (i j : Nat), id? x = some id ∧ (start? x).bind Value.int? = some (i : Int) ∧
    (stop? x).bind Value.int? = some (j : Int) ∧ i ≤ j ∧ j ≤ c.length ∧
    (c.rowFrom i).HasOnce id x ∧ (∀ k, k ≠ i → x ∉ (c.rowFrom k).elems) ∧
    (c.rowTo j).HasOnce id x ∧ (∀ k, k ≠ j → x ∉ (c.rowTo k).elems)

/-- How a chart stands for its items. -/
structure Sound (c : Chart ι) : Prop where
  rows : c.outgoing.length = c.length + 1 ∧ c.incoming.length = c.length + 1
  keys : ∀ k, (c.rowFrom k).Pairwise (fun b b' => (b.key == b'.key) = false) ∧
    (c.rowTo k).Pairwise fun b b' => (b.key == b'.key) = false
  filed : ∀ x k, x ∈ (c.rowFrom k).elems ∨ x ∈ (c.rowTo k).elems → c.FiledOnce x
  distinct : ∀ k, ∀ b ∈ c.rowFrom k ++ c.rowTo k, b.elems.Pairwise fun x y => (x == y) = false
  size : c.itemCount = size c.outgoing

theorem Filed.filedOnce (h : c.Filed) {x : ι} (hx : x ∈ c) : c.FiledOnce x := by
  obtain ⟨p, hp⟩ := h.place_of_mem hx
  obtain ⟨hid, ⟨u, hu, hi⟩, ⟨v, hv, hj⟩, hle, hlen⟩ := place_eq_ok hp
  have hfrom : ∀ k, x ∈ (c.rowFrom k).elems ↔ p.start = k := fun k => by simp [h.mem_rowFrom hp, hx]
  have hto : ∀ k, x ∈ (c.rowTo k).elems ↔ p.stop = k := fun k => by simp [h.mem_rowTo hp, hx]
  refine ⟨p.id, p.start, p.stop, hid, by simp [hu, hi], by simp [hv, hj], hle, hlen, ?_, ?_, ?_, ?_⟩
  · exact (h.keyed_from _).hasOnce (h.nodup_from _) ((hfrom _).2 rfl) hid
  · exact fun k hk hm => hk ((hfrom k).1 hm).symm
  · exact (h.keyed_to _).hasOnce (h.nodup_to _) ((hto _).2 rfl) hid
  · exact fun k hk hm => hk ((hto k).1 hm).symm

theorem Filed.sound (h : c.Filed) (hd : c.Distinct) (hsize : Chart.size c.outgoing = Chart.size c.incoming) :
    c.Sound where
  rows := ⟨h.outgoing_length, h.incoming_length⟩
  keys k := ⟨(h.keyed_from k).distinct, (h.keyed_to k).distinct⟩
  filed x k hx := h.filedOnce (hx.elim h.mem_of_rowFrom fun hx => ⟨k, hx⟩)
  distinct k b hb := (List.mem_append.1 hb).elim (hd.leaving k b) (hd.reaching k b)
  size := by rw [itemCount_eq_size, hsize]

/-- What a chart of insertions alone is. -/
theorem sound_putAll (n : Nat) (xs : List ι) :
    ((empty n).putAll xs).Sound ∧ ((empty n).putAll xs).itemCount = ((empty n).newOf xs).length := by
  have hf : (empty n : Chart ι).Filed := filed_empty n
  have hzero : size (empty n : Chart ι).outgoing = 0 ∧ size (empty n : Chart ι).incoming = 0 := by simp [size, empty]
  obtain ⟨hfrom, hto⟩ := hf.size_putAll xs
  rw [hzero.1, Nat.zero_add] at hfrom
  rw [hzero.2, Nat.zero_add] at hto
  refine ⟨(hf.putAll xs).sound (hf.distinct_putAll (distinct_empty n) xs) (hfrom.trans hto.symm), ?_⟩
  rw [itemCount_eq_size, hto]

end Chart

end ParseChart
