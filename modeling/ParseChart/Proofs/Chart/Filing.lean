import ParseChart.Chart
import ParseChart.Proofs.Buckets
import ParseChart.Proofs.ChartItem
/-!
# How charts file items

`Filed` is the invariant of charts that only insertions made: rows are keyed by ids and hold no item
twice, and an item stands in a row from its start iff it stands in the row to its stop. `put` offers one
item and `putAll` a list, refused items being passed over.
-/

namespace ParseChart

open ChartItem

variable {ι : Type}

namespace Chart

instance : Membership ι (Chart ι) := ⟨fun c x => ∃ j, x ∈ (c.rowTo j).elems⟩

/-! ## Rows -/

theorem rowFrom_empty (n i : Nat) : (empty n : Chart ι).rowFrom i = [] := by
  simp only [rowFrom, empty, List.getD_eq_getElem?_getD, List.getElem?_replicate]
  split <;> rfl

theorem rowTo_empty (n j : Nat) : (empty n : Chart ι).rowTo j = [] := rowFrom_empty n j

theorem not_mem_empty (n : Nat) (x : ι) : x ∉ empty n := by
  rintro ⟨j, hx⟩
  rw [rowTo_empty] at hx
  cases hx

theorem rowFrom_file {c : Chart ι} {p : Place} (hp : p.start < c.outgoing.length) (x : ι) (i : Nat) :
    (c.file p x).rowFrom i = if p.start = i then Buckets.add p.id x (c.rowFrom i) else c.rowFrom i := by
  simp only [rowFrom, file, List.getD_eq_getElem?_getD, List.getElem?_modify]
  split
  · subst i
    rw [List.getElem?_eq_getElem hp]
    rfl
  · cases c.outgoing[i]? <;> rfl

theorem rowTo_file {c : Chart ι} {p : Place} (hp : p.stop < c.incoming.length) (x : ι) (j : Nat) :
    (c.file p x).rowTo j = if p.stop = j then Buckets.add p.id x (c.rowTo j) else c.rowTo j := by
  simp only [rowTo, file, List.getD_eq_getElem?_getD, List.getElem?_modify]
  split
  · subst j
    rw [List.getElem?_eq_getElem hp]
    rfl
  · cases c.incoming[j]? <;> rfl

/-! ## Offers -/

variable [ChartItem ι]

/-- The chart after an item was offered. -/
def put (c : Chart ι) (x : ι) : Chart ι :=
  match c.insert x with
  | .ok made => made.chart
  | .error _ => c

/-- Whether an offered item is added. -/
def adds (c : Chart ι) (x : ι) : Bool :=
  match c.insert x with
  | .ok made => made.isNew
  | .error _ => false

def putAll (c : Chart ι) (xs : List ι) : Chart ι := xs.foldl put c

/-- Those of some offered items that are added. -/
def newOf (c : Chart ι) : List ι → List ι
  | [] => []
  | x :: xs => if c.adds x then x :: newOf (c.put x) xs else newOf (c.put x) xs

/-! ## Places -/

theorem place_eq_ok {c : Chart ι} {x : ι} {p : Place} (h : c.place x = .ok p) :
    id? x = some p.id ∧ (∃ v, start? x = some v ∧ v.int? = some (p.start : Int)) ∧
      (∃ v, stop? x = some v ∧ v.int? = some (p.stop : Int)) ∧ p.start ≤ p.stop ∧ p.stop ≤ c.length := by
  unfold place at h
  split at h
  · rename_i id start stop hid hstart hstop
    split at h
    · split at h
      · rename_i i j hi hj
        split at h
        · rename_i hb
          cases h
          refine ⟨hid, ⟨start, hstart, ?_⟩, ⟨stop, hstop, ?_⟩, ?_, ?_⟩
          · rw [hi, Int.toNat_of_nonneg hb.1]
          · rw [hj, Int.toNat_of_nonneg (by omega)]
          · show i.toNat ≤ j.toNat
            omega
          · show j.toNat ≤ c.length
            omega
        · cases h
      · cases h
    · cases h
  · cases h

theorem place_congr {c c' : Chart ι} (h : c.length = c'.length) (x : ι) : c.place x = c'.place x := by
  unfold place
  rw [h]

theorem beq_int_of_int? {v : Value} {n : Int} (h : v.int? = some n) (m : Int) : (v == .int m) = decide (n = m) := by
  cases v with
  | int a =>
    cases h
    show Value.same (.int n) (.int m) = _
    rw [Value.same]
    rfl
  | bool b =>
    cases h
    show Value.same (.bool b) (.int m) = _
    unfold Value.same
    simp only [Value.key]
    rw [Bool.eq_iff_iff, decide_eq_true_iff, beq_iff_eq, Value.Key.number.injEq, Extended.finite.injEq]
    exact Rat.intCast_inj
  | _ => cases h

theorem int_eq_of_beq {u v : Value} (h : (u == v) = true) {m n : Int} (hu : u.int? = some m) (hv : v.int? = some n) :
    m = n := by
  have hvn : (v == .int n) = true := by rw [beq_int_of_int? hv, decide_eq_true_iff]
  have hun := BEq.trans h hvn
  rwa [beq_int_of_int? hu, decide_eq_true_iff] at hun

theorem startsAt_iff {c : Chart ι} {x : ι} {p : Place} (h : c.place x = .ok p) (i : Nat) :
    startsAt i x = true ↔ p.start = i := by
  obtain ⟨-, ⟨v, hv, hi⟩, -⟩ := place_eq_ok h
  unfold ChartItem.startsAt
  rw [hv, Option.any_some, beq_int_of_int? hi, decide_eq_true_iff, Int.natCast_inj]

theorem stopsAt_iff {c : Chart ι} {x : ι} {p : Place} (h : c.place x = .ok p) (j : Nat) :
    stopsAt j x = true ↔ p.stop = j := by
  obtain ⟨-, -, ⟨v, hv, hi⟩, -⟩ := place_eq_ok h
  unfold ChartItem.stopsAt
  rw [hv, Option.any_some, beq_int_of_int? hi, decide_eq_true_iff, Int.natCast_inj]

/-! ## One insertion -/

theorem insert_of_place {c : Chart ι} {x : ι} {p : Place} (h : c.place x = .ok p) :
    c.insert x = .ok (if c.holds p x then ⟨p, false, c⟩ else ⟨p, true, c.file p x⟩) := by
  unfold insert
  rw [h]
  rfl

theorem adds_of_place {c : Chart ι} {x : ι} {p : Place} (h : c.place x = .ok p) : c.adds x = !c.holds p x := by
  unfold adds
  rw [insert_of_place h]
  cases c.holds p x <;> rfl

theorem insert_eq_ok {c : Chart ι} {x : ι} {p : Place} (h : c.place x = .ok p) :
    c.insert x = .ok ⟨p, c.adds x, c.put x⟩ := by
  rw [adds, put, insert_of_place h]
  cases c.holds p x <;> rfl

theorem put_of_place {c : Chart ι} {x : ι} {p : Place} (h : c.place x = .ok p) :
    c.put x = if c.adds x then c.file p x else c := by
  rw [adds_of_place h, put, insert_of_place h]
  cases c.holds p x <;> rfl

theorem put_of_error {c : Chart ι} {x : ι} {cause : Fault} (h : c.place x = .error cause) :
    c.put x = c ∧ c.adds x = false := by
  simp [put, adds, insert, h, Except.map]

theorem length_put (c : Chart ι) (x : ι) : (c.put x).length = c.length := by
  cases h : c.place x with
  | error cause => rw [(put_of_error h).1]
  | ok p => rw [put_of_place h]; split <;> rfl

/-! ## The invariant -/

structure Filed (c : Chart ι) : Prop where
  outgoing_length : c.outgoing.length = c.length + 1
  incoming_length : c.incoming.length = c.length + 1
  keyed_from : ∀ i, Buckets.Keyed id? (c.rowFrom i)
  keyed_to : ∀ j, Buckets.Keyed id? (c.rowTo j)
  nodup_from : ∀ i, (c.rowFrom i).elems.Nodup
  nodup_to : ∀ j, (c.rowTo j).elems.Nodup
  of_from : ∀ i, ∀ x ∈ (c.rowFrom i).elems, ∃ p, c.place x = .ok p ∧ p.start = i ∧ x ∈ (c.rowTo p.stop).elems
  of_to : ∀ j, ∀ x ∈ (c.rowTo j).elems, ∃ p, c.place x = .ok p ∧ p.stop = j ∧ x ∈ (c.rowFrom p.start).elems

theorem filed_empty (n : Nat) : (empty n : Chart ι).Filed where
  outgoing_length := List.length_replicate
  incoming_length := List.length_replicate
  keyed_from i := by rw [rowFrom_empty]; exact Buckets.keyed_nil _
  keyed_to j := by rw [rowTo_empty]; exact Buckets.keyed_nil _
  nodup_from i := by rw [rowFrom_empty]; exact .nil
  nodup_to j := by rw [rowTo_empty]; exact .nil
  of_from i x hx := by rw [rowFrom_empty] at hx; cases hx
  of_to j x hx := by rw [rowTo_empty] at hx; cases hx

variable {c : Chart ι}

theorem Filed.place_of_mem (h : c.Filed) {x : ι} (hx : x ∈ c) : ∃ p, c.place x = .ok p := by
  obtain ⟨j, hx⟩ := hx
  obtain ⟨p, hp, -⟩ := h.of_to j x hx
  exact ⟨p, hp⟩

theorem Filed.mem_of_rowFrom (h : c.Filed) {x : ι} {i : Nat} (hx : x ∈ (c.rowFrom i).elems) : x ∈ c := by
  obtain ⟨p, -, -, ht⟩ := h.of_from i x hx
  exact ⟨p.stop, ht⟩

theorem Filed.mem_rowTo (h : c.Filed) {x : ι} {p : Place} (hp : c.place x = .ok p) (j : Nat) :
    x ∈ (c.rowTo j).elems ↔ x ∈ c ∧ p.stop = j := by
  constructor
  · intro hx
    obtain ⟨q, hq, hj, -⟩ := h.of_to j x hx
    rw [hp] at hq
    cases hq
    exact ⟨⟨j, hx⟩, hj⟩
  · rintro ⟨⟨k, hx⟩, rfl⟩
    obtain ⟨q, hq, rfl, -⟩ := h.of_to k x hx
    rw [hp] at hq
    cases hq
    exact hx

theorem Filed.rowTo_unique (h : c.Filed) {x : ι} {i j : Nat} (hi : x ∈ (c.rowTo i).elems)
    (hj : x ∈ (c.rowTo j).elems) : i = j := by
  obtain ⟨p, hp, rfl, -⟩ := h.of_to i x hi
  exact ((h.mem_rowTo hp j).1 hj).2

theorem Filed.mem_rowFrom (h : c.Filed) {x : ι} {p : Place} (hp : c.place x = .ok p) (i : Nat) :
    x ∈ (c.rowFrom i).elems ↔ x ∈ c ∧ p.start = i := by
  constructor
  · intro hx
    obtain ⟨q, hq, hi, ht⟩ := h.of_from i x hx
    rw [hp] at hq
    cases hq
    exact ⟨⟨p.stop, ht⟩, hi⟩
  · rintro ⟨⟨k, hx⟩, rfl⟩
    obtain ⟨q, hq, -, hf⟩ := h.of_to k x hx
    rw [hp] at hq
    cases hq
    exact hf

end Chart

/-! ## Items between whole positions -/

namespace ChartItem.Over

variable [ChartItem ι] {x : ι} {i j : Nat} {c : Chart ι}

theorem place (h : Over x i j) (c : Chart ι) (hij : i ≤ j) (hj : j ≤ c.length) : ∃ id, c.place x = .ok ⟨id, i, j⟩ := by
  obtain ⟨id, hid, hisId⟩ := h.id
  have hb : (0 : Int) ≤ i ∧ (i : Int) ≤ j ∧ (j : Int) ≤ c.length := by omega
  simp only [Chart.place, hid, h.start, h.stop, hisId, if_true, Value.int?]
  exact ⟨id, if_pos hb⟩

theorem place_eq (h : Over x i j) {p : Place} (hp : c.place x = .ok p) : p.start = i ∧ p.stop = j := by
  obtain ⟨-, ⟨v, hv, hi⟩, ⟨u, hu, hj⟩, -, -⟩ := Chart.place_eq_ok hp
  rw [h.start] at hv
  rw [h.stop] at hu
  cases hv
  cases hu
  exact ⟨Int.natCast_inj.1 (Option.some.inj hi).symm, Int.natCast_inj.1 (Option.some.inj hj).symm⟩

theorem stopsAt (h : Over x i j) (k : Nat) : stopsAt k x = true ↔ j = k := by
  unfold ChartItem.stopsAt
  rw [h.stop, Option.any_some, Chart.beq_int_of_int? (n := j) rfl, decide_eq_true_iff, Int.natCast_inj]

theorem mem_rowTo (h : Over x i j) (hc : c.Filed) (k : Nat) : x ∈ (c.rowTo k).elems ↔ x ∈ c ∧ j = k := by
  constructor
  · intro hx
    obtain ⟨p, hp, hk, -⟩ := hc.of_to k _ hx
    exact ⟨⟨k, hx⟩, (h.place_eq hp).2.symm.trans hk⟩
  · rintro ⟨hx, rfl⟩
    obtain ⟨p, hp⟩ := hc.place_of_mem hx
    exact (hc.mem_rowTo hp j).2 ⟨hx, (h.place_eq hp).2⟩

theorem mem_rowFrom (h : Over x i j) (hc : c.Filed) (k : Nat) : x ∈ (c.rowFrom k).elems ↔ x ∈ c ∧ i = k := by
  constructor
  · intro hx
    obtain ⟨p, hp, hk, ht⟩ := hc.of_from k _ hx
    exact ⟨⟨_, ht⟩, (h.place_eq hp).1.symm.trans hk⟩
  · rintro ⟨hx, rfl⟩
    obtain ⟨p, hp⟩ := hc.place_of_mem hx
    exact (hc.mem_rowFrom hp i).2 ⟨hx, (h.place_eq hp).1⟩

theorem bounds (h : Over x i j) (hc : c.Filed) (hx : x ∈ c) : i ≤ j ∧ j ≤ c.length := by
  obtain ⟨p, hp⟩ := hc.place_of_mem hx
  obtain ⟨-, -, -, hle, hlen⟩ := Chart.place_eq_ok hp
  obtain ⟨rfl, rfl⟩ := h.place_eq hp
  exact ⟨hle, hlen⟩

end ChartItem.Over

namespace Chart

/-! ## Insertion and the invariant -/

variable [ChartItem ι] {c : Chart ι}

/-- Only items with the same id are compared, and all of these are. -/
theorem Filed.holds_iff (h : c.Filed) (p : Place) (x : ι) :
    c.holds p x = true ↔ ∃ y ∈ (c.rowFrom p.start).elems, (id? y).any (· == p.id) = true ∧ (y == x) = true := by
  unfold holds
  rw [(h.keyed_from p.start).get_eq_filter, List.any_filter, List.any_eq_true]
  simp

theorem Filed.mem_file_from (h : c.Filed) {x y : ι} {p : Place} (hp : c.place x = .ok p) (i : Nat) :
    y ∈ ((c.file p x).rowFrom i).elems ↔ y ∈ (c.rowFrom i).elems ∨ y = x ∧ p.start = i := by
  obtain ⟨-, -, -, hle, hlen⟩ := place_eq_ok hp
  rw [rowFrom_file (by rw [h.outgoing_length]; omega)]
  split
  · simp [Buckets.mem_elems_add, *]
  · simp [*]

theorem Filed.mem_file_to (h : c.Filed) {x y : ι} {p : Place} (hp : c.place x = .ok p) (j : Nat) :
    y ∈ ((c.file p x).rowTo j).elems ↔ y ∈ (c.rowTo j).elems ∨ y = x ∧ p.stop = j := by
  obtain ⟨-, -, -, -, hlen⟩ := place_eq_ok hp
  rw [rowTo_file (by rw [h.incoming_length]; omega)]
  split
  · simp [Buckets.mem_elems_add, *]
  · simp [*]

theorem Filed.not_mem_of_adds (h : c.Filed) {x : ι} {p : Place} (hp : c.place x = .ok p) (hx : c.adds x = true) :
    x ∉ c := by
  intro hm
  rw [adds_of_place hp, Bool.not_eq_true', ← Bool.not_eq_true, h.holds_iff] at hx
  exact hx ⟨x, (h.mem_rowFrom hp _).2 ⟨hm, rfl⟩, by simp [(place_eq_ok hp).1], by simp⟩

theorem Filed.file (h : c.Filed) {x : ι} {p : Place} (hp : c.place x = .ok p) (hx : c.adds x = true) :
    (c.file p x).Filed := by
  obtain ⟨hid, -, -, hle, hlen⟩ := place_eq_ok hp
  have hnew := h.not_mem_of_adds hp hx
  have hplace : ∀ y, (c.file p x).place y = c.place y := place_congr rfl
  refine ⟨?_, ?_, fun i => ?_, fun j => ?_, fun i => ?_, fun j => ?_, fun i y hy => ?_, fun j y hy => ?_⟩
  · simp [Chart.file, h.outgoing_length]
  · simp [Chart.file, h.incoming_length]
  · rw [rowFrom_file (by rw [h.outgoing_length]; omega)]
    split
    · exact (h.keyed_from i).add hid
    · exact h.keyed_from i
  · rw [rowTo_file (by rw [h.incoming_length]; omega)]
    split
    · exact (h.keyed_to j).add hid
    · exact h.keyed_to j
  · rw [rowFrom_file (by rw [h.outgoing_length]; omega)]
    split
    · exact Buckets.nodup_elems_add (h.nodup_from i) fun hm => hnew ((h.mem_rowFrom hp i).1 hm).1
    · exact h.nodup_from i
  · rw [rowTo_file (by rw [h.incoming_length]; omega)]
    split
    · exact Buckets.nodup_elems_add (h.nodup_to j) fun hm => hnew ((h.mem_rowTo hp j).1 hm).1
    · exact h.nodup_to j
  · rcases (h.mem_file_from hp i).1 hy with hy | ⟨rfl, rfl⟩
    · obtain ⟨q, hq, hi, ht⟩ := h.of_from i y hy
      exact ⟨q, (hplace y).trans hq, hi, (h.mem_file_to hp _).2 (.inl ht)⟩
    · exact ⟨p, (hplace y).trans hp, rfl, (h.mem_file_to hp _).2 (.inr ⟨rfl, rfl⟩)⟩
  · rcases (h.mem_file_to hp j).1 hy with hy | ⟨rfl, rfl⟩
    · obtain ⟨q, hq, hj, hf⟩ := h.of_to j y hy
      exact ⟨q, (hplace y).trans hq, hj, (h.mem_file_from hp _).2 (.inl hf)⟩
    · exact ⟨p, (hplace y).trans hp, rfl, (h.mem_file_from hp _).2 (.inr ⟨rfl, rfl⟩)⟩

theorem Filed.put (h : c.Filed) (x : ι) : (c.put x).Filed := by
  cases hp : c.place x with
  | error cause => rwa [(put_of_error hp).1]
  | ok p =>
    rw [put_of_place hp]
    split
    · exact h.file hp ‹_›
    · exact h

theorem Filed.mem_put (h : c.Filed) {x y : ι} : y ∈ c.put x ↔ y ∈ c ∨ y = x ∧ c.adds x = true := by
  cases hp : c.place x with
  | error cause => simp [put_of_error hp]
  | ok p =>
    rw [put_of_place hp]
    split
    · constructor
      · rintro ⟨j, hy⟩
        rcases (h.mem_file_to hp j).1 hy with hy | ⟨rfl, -⟩
        · exact .inl ⟨j, hy⟩
        · exact .inr ⟨rfl, ‹_›⟩
      · rintro (⟨j, hy⟩ | ⟨rfl, -⟩)
        · exact ⟨j, (h.mem_file_to hp j).2 (.inl hy)⟩
        · exact ⟨p.stop, (h.mem_file_to hp _).2 (.inr ⟨rfl, rfl⟩)⟩
    · simp [*]

theorem Filed.rowTo_put_perm (h : c.Filed) (x : ι) (j : Nat) :
    ((c.put x).rowTo j).elems.Perm ((c.rowTo j).elems ++ if c.adds x && stopsAt j x then [x] else []) := by
  cases hp : c.place x with
  | error cause => simp [put_of_error hp]
  | ok p =>
    rw [put_of_place hp, show stopsAt j x = decide (p.stop = j) from by rw [Bool.eq_iff_iff, stopsAt_iff hp]; simp]
    split
    · rw [rowTo_file (by rw [h.incoming_length]; have := (place_eq_ok hp).2.2.2.2; omega)]
      by_cases p.stop = j <;> simp [*, Buckets.elems_add_perm]
    · simp [*]

/-- An item changes no other row than that to its stop. -/
theorem Filed.rowTo_put_of_ne (h : c.Filed) {x : ι} {j : Nat} (hx : ∀ p, c.place x = .ok p → p.stop ≠ j) :
    (c.put x).rowTo j = c.rowTo j := by
  cases hp : c.place x with
  | error cause => rw [(put_of_error hp).1]
  | ok p =>
    rw [put_of_place hp]
    split
    · rw [rowTo_file (by rw [h.incoming_length]; have := (place_eq_ok hp).2.2.2.2; omega), if_neg (hx p hp)]
    · rfl

/-! ## Lists of insertions -/

theorem length_putAll (c : Chart ι) (xs : List ι) : (c.putAll xs).length = c.length := by
  induction xs generalizing c with
  | nil => rfl
  | cons x xs ih => exact (ih (c.put x)).trans (length_put c x)

theorem Filed.putAll (h : c.Filed) (xs : List ι) : (c.putAll xs).Filed := by
  induction xs generalizing c with
  | nil => exact h
  | cons x xs ih => exact ih (h.put x)

theorem Filed.mem_putAll (h : c.Filed) {xs : List ι} {y : ι} : y ∈ c.putAll xs ↔ y ∈ c ∨ y ∈ c.newOf xs := by
  induction xs generalizing c with
  | nil => simp [Chart.putAll, newOf]
  | cons x xs ih =>
    rw [Chart.putAll, List.foldl_cons, ← Chart.putAll, ih (h.put x), h.mem_put, newOf]
    split <;> simp [*, or_assoc]

theorem Filed.rowTo_putAll_perm (h : c.Filed) (xs : List ι) (j : Nat) :
    ((c.putAll xs).rowTo j).elems.Perm ((c.rowTo j).elems ++ (c.newOf xs).filter (stopsAt j)) := by
  induction xs generalizing c with
  | nil => simp [Chart.putAll, newOf]
  | cons x xs ih =>
    refine (ih (h.put x)).trans (((h.rowTo_put_perm x j).append_right _).trans ?_)
    rw [newOf]
    cases c.adds x <;> cases hs : stopsAt j x <;> simp [hs]

theorem Filed.mem_rowTo_putAll (h : c.Filed) {xs : List ι} {j : Nat} {y : ι} :
    y ∈ ((c.putAll xs).rowTo j).elems ↔ y ∈ (c.rowTo j).elems ∨ y ∈ c.newOf xs ∧ stopsAt j y = true := by
  rw [(h.rowTo_putAll_perm xs j).mem_iff, List.mem_append, List.mem_filter]

theorem Filed.rowTo_putAll_of_ne (h : c.Filed) {xs : List ι} {j : Nat}
    (hxs : ∀ x ∈ xs, ∀ p, c.place x = .ok p → p.stop ≠ j) : (c.putAll xs).rowTo j = c.rowTo j := by
  induction xs generalizing c with
  | nil => rfl
  | cons x xs ih =>
    rw [Chart.putAll, List.foldl_cons, ← Chart.putAll, ih (h.put x) fun y hy q hq => ?_]
    · exact h.rowTo_put_of_ne (hxs x (by simp))
    · rw [place_congr (length_put c x)] at hq
      exact hxs y (by simp [hy]) q hq

theorem newOf_subset {xs : List ι} {y : ι} (hy : y ∈ c.newOf xs) : y ∈ xs := by
  induction xs generalizing c with
  | nil => cases hy
  | cons x xs ih =>
    rw [newOf] at hy
    split at hy
    · rcases List.mem_cons.1 hy with rfl | hy
      · simp
      · exact List.mem_cons_of_mem _ (ih hy)
    · exact List.mem_cons_of_mem _ (ih hy)

/-- Nothing is new at `j` of items that stop elsewhere. -/
theorem filter_newOf_of_ne {xs : List ι} {j : Nat} (hxs : ∀ x ∈ xs, ∃ k l, Over x k l ∧ l ≠ j) :
    (c.newOf xs).filter (stopsAt j) = [] := by
  apply List.filter_eq_nil_iff.2
  intro x hx
  obtain ⟨k, l, hover, hl⟩ := hxs x (newOf_subset hx)
  rwa [hover.stopsAt]

end Chart

end ParseChart
