import ParseChart.Proofs.Buckets.Only
import ParseChart.Proofs.Chart.Filing
import ParseChart.Proofs.Item
/-!
# Charts that parsers share

Dotted rules and constituents never stand in one bucket, as their ids differ. So a chart that holds both
has a part for each kind, `only k`, and an offered item changes the part of its own kind alone: there it
does what it would do on a chart of that kind by itself.
-/

namespace ParseChart

def Item.isOf (k : Kind) (x : Item) : Bool := x.kind? == some k

theorem Item.isOf_iff {k : Kind} {x : Item} : x.isOf k = true ↔ x.kind? = some k := by simp [isOf]

theorem Item.kind_isSome {k : Kind} {x : Item} (h : x.isOf k = true) : x.kind?.isSome = true := by
  rw [Item.isOf_iff.1 h]
  rfl

theorem Item.isComplete_isSome {x : Item} (h : x.kind?.isSome = true) : x.isComplete?.isSome = true := by
  cases x with
  | earley | cyk => rfl
  | _ => cases h

/-- What a parser made is a constituent or a dotted rule, and not both. -/
theorem Item.isOf_cyk {x : Item} (h : x.kind?.isSome = true) : x.isOf .cyk = !x.isOf .earley := by
  obtain ⟨kind, hkind⟩ := Option.isSome_iff_exists.1 h
  unfold isOf
  rw [hkind]
  cases kind <;> rfl

namespace Chart

/-- The items of one kind, in the order in which they stand. -/
def only (k : Kind) (c : Chart Item) : Chart Item where
  length := c.length
  outgoing := c.outgoing.map (Buckets.only (·.isOf k))
  incoming := c.incoming.map (Buckets.only (·.isOf k))

/-- A chart of items that parsers made. -/
structure Mixed (c : Chart Item) : Prop where
  filed : c.Filed
  kinds : ∀ x ∈ c, x.kind?.isSome = true

variable {c : Chart Item} {k : Kind} {x : Item} {xs : List Item}

theorem mixed_empty (n : Nat) : (empty n).Mixed := ⟨filed_empty n, fun x hx => absurd hx (not_mem_empty n x)⟩

theorem Mixed.put (h : c.Mixed) (hx : x.kind?.isSome = true) : (c.put x).Mixed := by
  refine ⟨h.filed.put x, fun y hy => ?_⟩
  rcases h.filed.mem_put.1 hy with hy | ⟨rfl, -⟩
  · exact h.kinds y hy
  · exact hx

theorem Mixed.putAll (h : c.Mixed) (hxs : ∀ x ∈ xs, x.kind?.isSome = true) : (c.putAll xs).Mixed := by
  induction xs generalizing c with
  | nil => exact h
  | cons x xs ih => exact ih (h.put (hxs x (by simp))) fun y hy => hxs y (List.mem_cons_of_mem x hy)

/-! ## The part of a kind -/

theorem only_empty (k : Kind) (n : Nat) : (empty n).only k = empty n := by
  have hnil : Buckets.only (·.isOf k) ([] : Row Item) = [] := rfl
  simp [only, empty, List.map_replicate, hnil]

theorem rowFrom_only (c : Chart Item) (k : Kind) (i : Nat) : (c.only k).rowFrom i = Buckets.only (·.isOf k) (c.rowFrom i) := by
  simp only [rowFrom, only, List.getD_eq_getElem?_getD, List.getElem?_map]
  cases c.outgoing[i]? <;> rfl

theorem rowTo_only (c : Chart Item) (k : Kind) (j : Nat) : (c.only k).rowTo j = Buckets.only (·.isOf k) (c.rowTo j) := by
  simp only [rowTo, only, List.getD_eq_getElem?_getD, List.getElem?_map]
  cases c.incoming[j]? <;> rfl

theorem Mixed.uniform {row : Row Item} (h : c.Mixed) (hkeyed : Buckets.Keyed Item.id? row) (hrow : ∀ x ∈ row.elems, x ∈ c)
    (k : Kind) : Buckets.Uniform (·.isOf k) row := by
  refine hkeyed.uniform fun x hx y hy i j hi hj hij => ?_
  unfold Item.isOf
  rw [Item.kind_eq_of_id (h.kinds x (hrow x hx)) (h.kinds y (hrow y hy)) hi hj hij]

theorem Mixed.uniform_from (h : c.Mixed) (k : Kind) (i : Nat) : Buckets.Uniform (·.isOf k) (c.rowFrom i) :=
  h.uniform (h.filed.keyed_from i) (fun _ hx => h.filed.mem_of_rowFrom hx) k

theorem Mixed.uniform_to (h : c.Mixed) (k : Kind) (j : Nat) : Buckets.Uniform (·.isOf k) (c.rowTo j) :=
  h.uniform (h.filed.keyed_to j) (fun _ hx => ⟨j, hx⟩) k

theorem Mixed.elems_from (h : c.Mixed) (k : Kind) (i : Nat) :
    ((c.only k).rowFrom i).elems = (c.rowFrom i).elems.filter (·.isOf k) := by
  rw [rowFrom_only, (h.uniform_from k i).elems_only]

theorem Mixed.elems_to (h : c.Mixed) (k : Kind) (j : Nat) :
    ((c.only k).rowTo j).elems = (c.rowTo j).elems.filter (·.isOf k) := by
  rw [rowTo_only, (h.uniform_to k j).elems_only]

theorem Mixed.filed_only (h : c.Mixed) (k : Kind) : (c.only k).Filed where
  outgoing_length := by simp [only, h.filed.outgoing_length]
  incoming_length := by simp [only, h.filed.incoming_length]
  keyed_from i := by rw [rowFrom_only]; exact (h.filed.keyed_from i).only
  keyed_to j := by rw [rowTo_only]; exact (h.filed.keyed_to j).only
  nodup_from i := by rw [h.elems_from]; exact (h.filed.nodup_from i).filter _
  nodup_to j := by rw [h.elems_to]; exact (h.filed.nodup_to j).filter _
  of_from i x hx := by
    rw [h.elems_from, List.mem_filter] at hx
    obtain ⟨p, hp, hi, ht⟩ := h.filed.of_from i x hx.1
    refine ⟨p, hp, hi, ?_⟩
    rw [h.elems_to, List.mem_filter]
    exact ⟨ht, hx.2⟩
  of_to j x hx := by
    rw [h.elems_to, List.mem_filter] at hx
    obtain ⟨p, hp, hj, hf⟩ := h.filed.of_to j x hx.1
    refine ⟨p, hp, hj, ?_⟩
    rw [h.elems_from, List.mem_filter]
    exact ⟨hf, hx.2⟩

theorem Mixed.mixed_only (h : c.Mixed) (k : Kind) : (c.only k).Mixed := by
  refine ⟨h.filed_only k, fun x hx => ?_⟩
  obtain ⟨j, hx⟩ := hx
  rw [h.elems_to] at hx
  exact h.kinds x ⟨j, List.mem_of_mem_filter hx⟩

/-! ## Insertion -/

/-- Equal items are of one kind, so the part of that kind finds what the chart finds. -/
theorem Mixed.holds_only (h : c.Mixed) (hx : x.isOf k = true) (p : Place) : (c.only k).holds p x = c.holds p x := by
  rw [Bool.eq_iff_iff, (h.filed_only k).holds_iff, h.filed.holds_iff, h.elems_from]
  constructor
  · rintro ⟨y, hy, hid, he⟩
    exact ⟨y, List.mem_of_mem_filter hy, hid, he⟩
  · rintro ⟨y, hy, hid, he⟩
    refine ⟨y, List.mem_filter.2 ⟨hy, ?_⟩, hid, he⟩
    rwa [Item.isOf_iff, Item.kind_eq_of_beq he, ← Item.isOf_iff]

theorem Mixed.adds_only (h : c.Mixed) (hx : x.isOf k = true) : (c.only k).adds x = c.adds x := by
  have hplace : (c.only k).place x = c.place x := place_congr rfl x
  cases hp : c.place x with
  | error cause => rw [(put_of_error hp).2, (put_of_error (hplace.trans hp)).2]
  | ok p => rw [adds_of_place hp, adds_of_place (hplace.trans hp), h.holds_only hx]

theorem map_only_modify {rows : List (Row Item)} {i : Nat} {key : Value} {x : Item} (hi : i < rows.length)
    (hu : Buckets.Uniform (·.isOf k) (Buckets.add key x (rows.getD i []))) (hn : ∀ b ∈ rows.getD i [], b.elems ≠ []) :
    (rows.modify i (Buckets.add key x)).map (Buckets.only (·.isOf k)) =
      if x.isOf k then (rows.map (Buckets.only (·.isOf k))).modify i (Buckets.add key x)
      else rows.map (Buckets.only (·.isOf k)) := by
  have hrow := Buckets.only_add hu hn
  rw [List.getD_eq_getElem?_getD, List.getElem?_eq_getElem hi, Option.getD_some] at hrow
  apply List.ext_getElem?
  intro j
  rw [List.getElem?_map, List.getElem?_modify]
  by_cases hij : i = j
  · subst hij
    cases hk : x.isOf k <;> simp [hi, hrow, hk]
  · cases hk : x.isOf k <;> simp [hij]

theorem Mixed.only_file (h : c.Mixed) {p : Place} (hp : c.place x = .ok p) (h' : (c.file p x).Mixed) (k : Kind) :
    (c.file p x).only k = if x.isOf k then (c.only k).file p x else c.only k := by
  obtain ⟨-, -, -, hle, hlen⟩ := place_eq_ok hp
  have hstart : p.start < c.outgoing.length := by rw [h.filed.outgoing_length]; omega
  have hstop : p.stop < c.incoming.length := by rw [h.filed.incoming_length]; omega
  have hu := h'.uniform_from k p.start
  have hu' := h'.uniform_to k p.stop
  rw [rowFrom_file hstart, if_pos rfl] at hu
  rw [rowTo_file hstop, if_pos rfl] at hu'
  have hfrom := map_only_modify hstart hu (h.filed.keyed_from p.start).nonempty
  have hto := map_only_modify hstop hu' (h.filed.keyed_to p.stop).nonempty
  simp only [only, file, hfrom, hto]
  split <;> rfl

/-- What is offered to a chart changes the part of its kind, as it would by itself, and no other. -/
theorem Mixed.only_put (h : c.Mixed) (hx : x.kind?.isSome = true) (k : Kind) :
    (c.put x).only k = if x.isOf k then (c.only k).put x else c.only k := by
  have hplace : (c.only k).place x = c.place x := place_congr rfl x
  cases hp : c.place x with
  | error cause => rw [(put_of_error hp).1, (put_of_error (hplace.trans hp)).1, ite_self]
  | ok p =>
    have h' := h.put hx
    rw [put_of_place hp] at h' ⊢
    rw [put_of_place (hplace.trans hp)]
    cases hadds : c.adds x with
    | false => cases hk : x.isOf k <;> simp [hadds, h.adds_only, hk]
    | true =>
      simp only [hadds, if_true] at h' ⊢
      rw [h.only_file hp h']
      cases hk : x.isOf k <;> simp [hadds, h.adds_only, hk]

theorem Mixed.only_putAll (h : c.Mixed) (hxs : ∀ x ∈ xs, x.kind?.isSome = true) (k : Kind) :
    (c.putAll xs).only k = (c.only k).putAll (xs.filter (·.isOf k)) ∧
      (c.newOf xs).filter (·.isOf k) = (c.only k).newOf (xs.filter (·.isOf k)) := by
  induction xs generalizing c with
  | nil => exact ⟨rfl, rfl⟩
  | cons x xs ih =>
    have hx := hxs x (by simp)
    have hput := h.only_put hx k
    obtain ⟨hall, hnew⟩ := ih (h.put hx) fun y hy => hxs y (List.mem_cons_of_mem x hy)
    rw [Chart.putAll, List.foldl_cons, ← Chart.putAll, hall, newOf, apply_ite (List.filter _), List.filter_cons,
      List.filter_cons, hnew, hput]
    cases hk : x.isOf k with
    | true =>
      refine ⟨rfl, ?_⟩
      simp only [if_true, newOf, h.adds_only hk]
    | false => simp

end Chart

end ParseChart
