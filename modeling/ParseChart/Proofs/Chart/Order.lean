import ParseChart.Proofs.Buckets.Order
import ParseChart.Proofs.Chart.Answers
import ParseChart.Proofs.Chart.Kinds
import ParseChart.Proofs.Chart.Twins
/-!
# The order within a cell

The id of a dotted rule or a constituent ends with its span, whatever text stands before that, so items with
one id lie in one cell. A new item therefore comes to stand behind the last one of its id in its own cell and
in no other, in the row from its start as in the row to its stop, and both rows list each cell in one order.
-/

namespace ParseChart

open ChartItem

/-! ## Spans in ids -/

/-- The id of a parser's item ends with its span. -/
theorem Item.exists_id {x : Item} (h : x.kind?.isSome = true) :
    ∃ (front : String) (s : Span), x.start? = some s.start ∧ x.stop? = some s.stop ∧
      x.id? = some (.text (front ++ ", " ++ s.start.display ++ ", " ++ s.stop.display ++ ")")) := by
  cases x with
  | earley r d s xs => exact ⟨"Earley(" ++ r.display ++ ", " ++ d.repr, s, rfl, rfl, rfl⟩
  | cyk r s xs => exact ⟨"CYK(" ++ r.lhs, s, rfl, rfl, rfl⟩
  | _ => cases h

/-- Between the same positions, the items with the id of a constituent are the constituents of its symbol. -/
theorem Item.named_iff {y : Item} {i j : Nat} {r : Rule} {cs : List Item} {id : Value} (hk : y.kind?.isSome = true)
    (hy : Over y i j) (hid : (Item.cyk r (.between i j) cs).id? = some id) :
    named id y = true ↔ y.isOf .cyk = true ∧ y.derives r.lhs = true := by
  constructor
  · intro hnamed
    obtain ⟨v, hv, he⟩ := Option.any_eq_true _ _ |>.1 hnamed
    have hkind := kind_eq_of_id hk rfl hv hid he
    cases y with
    | cyk s p ds =>
      obtain rfl := hy.span
      obtain ⟨hlhs, -⟩ := ends_of_id hv hid he
      exact ⟨rfl, by simp [derives, rule?, hlhs]⟩
    | _ => cases hkind
  · rintro ⟨hcyk, hlhs⟩
    cases y with
    | cyk s p ds =>
      obtain rfl := hy.span
      cases hid
      simp only [derives, rule?, Option.any_some, beq_iff_eq] at hlhs
      simp [named, ChartItem.id?, id?, hlhs]
    | _ => cases hcyk

namespace Chart

variable {c : Chart Item} {x y : Item} {p q : Place} {xs : List Item} {i j k l : Nat}

/-- Parsers' items with equal ids have the same ends, written in the same way. -/
theorem ends_of_id (hx : x.kind?.isSome = true) (hy : y.kind?.isSome = true) (hp : c.place x = .ok p)
    (hq : c.place y = .ok q) (h : (p.id == q.id) = true) : x.start? = y.start? ∧ x.stop? = y.stop? := by
  obtain ⟨hid, ⟨u, hu, hi⟩, ⟨v, hv, hj⟩, -⟩ := place_eq_ok hp
  obtain ⟨hid', ⟨u', hu', hi'⟩, ⟨v', hv', hj'⟩, -⟩ := place_eq_ok hq
  obtain ⟨front, s, hstart, hstop, htext⟩ := Item.exists_id hx
  obtain ⟨front', t, hstart', hstop', htext'⟩ := Item.exists_id hy
  cases hu.symm.trans hstart
  cases hv.symm.trans hstop
  cases hu'.symm.trans hstart'
  cases hv'.symm.trans hstop'
  rw [Option.some.inj (hid.symm.trans htext), Option.some.inj (hid'.symm.trans htext'), Value.text_beq] at h
  obtain ⟨-, rfl⟩ := Span.read_inj hi hj hi' hj' h
  exact ⟨hstart.trans hstart'.symm, hstop.trans hstop'.symm⟩

theorem Mixed.ends_of_named (h : c.Mixed) (hx : x.kind?.isSome = true) (hp : c.place x = .ok p) (hy : y ∈ c)
    (hid : named p.id y = true) : start? y = start? x ∧ stop? y = stop? x := by
  obtain ⟨q, hq⟩ := h.filed.place_of_mem hy
  unfold ChartItem.named at hid
  rw [(place_eq_ok hq).1, Option.any_some] at hid
  exact ends_of_id (h.kinds y hy) hx hq hp hid

/-! ## Insertion into a cell -/

/-- The items from `i` to `j` in the order of the row to `j`. -/
def cellTo (c : Chart Item) (i j : Nat) : List Item := (c.rowTo j).elems.filter (startsAt i)

/-- A new item comes to stand in its own cell, behind the last one of its id. -/
theorem Mixed.cell_put (h : c.Mixed) (hx : x.kind?.isSome = true) (hp : c.place x = .ok p) (hadds : c.adds x = true)
    (i j : Nat) : (c.put x).cell i j =
      if p.start = i ∧ p.stop = j then Buckets.insertBehind (named p.id) x (c.cell i j) else c.cell i j := by
  have hlen : p.start < c.outgoing.length := by
    obtain ⟨-, -, -, hle, hlen⟩ := place_eq_ok hp
    rw [h.filed.outgoing_length]
    omega
  rw [put_of_place hp, if_pos hadds]
  unfold cell
  rw [rowFrom_file hlen]
  by_cases hi : p.start = i
  · subst hi
    have hlike : ∀ y ∈ (c.rowFrom p.start).elems, named p.id y = true → stopsAt j y = stopsAt j x := by
      intro y hy hid
      unfold ChartItem.stopsAt
      rw [(h.ends_of_named hx hp (h.filed.mem_of_rowFrom hy) hid).2]
    have hstop : (stopsAt j x = true) = (True ∧ p.stop = j) := by rw [stopsAt_iff hp, true_and]
    rw [if_pos rfl, (h.filed.keyed_from p.start).elems_add]
    simp only [eq_self, ← hstop]
    exact Buckets.filter_insertBehind hlike
  · simp [hi]

/-- Items of one cell leave the others as they are. -/
theorem Mixed.cell_putAll_of_ne (h : c.Mixed) (hxs : ∀ x ∈ xs, x.kind?.isSome = true ∧ Over x i j)
    (hne : ¬(i = k ∧ j = l)) : (c.putAll xs).cell k l = c.cell k l := by
  induction xs generalizing c with
  | nil => rfl
  | cons x xs ih =>
    obtain ⟨hk, hover⟩ := hxs x (by simp)
    rw [Chart.putAll, List.foldl_cons, ← Chart.putAll, ih (h.put hk) fun y hy => hxs y (List.mem_cons_of_mem x hy)]
    cases hp : c.place x with
    | error cause => rw [(put_of_error hp).1]
    | ok p =>
      cases hadds : c.adds x with
      | false => rw [put_of_not_adds hadds]
      | true =>
        obtain ⟨hstart, hstop⟩ := hover.place_eq hp
        rw [h.cell_put hk hp hadds, hstart, hstop, if_neg hne]

theorem Mixed.cellTo_put (h : c.Mixed) (hx : x.kind?.isSome = true) (hp : c.place x = .ok p) (hadds : c.adds x = true)
    (i j : Nat) : (c.put x).cellTo i j =
      if p.start = i ∧ p.stop = j then Buckets.insertBehind (named p.id) x (c.cellTo i j) else c.cellTo i j := by
  have hlen : p.stop < c.incoming.length := by
    obtain ⟨-, -, -, -, hlen⟩ := place_eq_ok hp
    rw [h.filed.incoming_length]
    omega
  rw [put_of_place hp, if_pos hadds]
  unfold cellTo
  rw [rowTo_file hlen]
  by_cases hj : p.stop = j
  · subst hj
    have hlike : ∀ y ∈ (c.rowTo p.stop).elems, named p.id y = true → startsAt i y = startsAt i x := by
      intro y hy hid
      unfold ChartItem.startsAt
      rw [(h.ends_of_named hx hp ⟨p.stop, hy⟩ hid).1]
    have hstart : (startsAt i x = true) = (p.start = i ∧ True) := by rw [startsAt_iff hp, and_true]
    rw [if_pos rfl, (h.filed.keyed_to p.stop).elems_add]
    simp only [eq_self, ← hstart]
    exact Buckets.filter_insertBehind hlike
  · simp [hj]

/-! ## One order -/

/-- Both rows list each cell in one order. -/
def InOrder (c : Chart Item) : Prop := ∀ i j, c.cell i j = c.cellTo i j

theorem inOrder_empty (n : Nat) : (empty n).InOrder := by
  intro i j
  unfold cell cellTo
  rw [rowFrom_empty, rowTo_empty]
  rfl

theorem Mixed.inOrder_put (h : c.Mixed) (ho : c.InOrder) (hx : x.kind?.isSome = true) : (c.put x).InOrder := by
  intro i j
  cases hp : c.place x with
  | error cause =>
    rw [(put_of_error hp).1]
    exact ho i j
  | ok p =>
    cases hadds : c.adds x with
    | false =>
      rw [put_of_not_adds hadds]
      exact ho i j
    | true => rw [h.cell_put hx hp hadds, h.cellTo_put hx hp hadds, ho i j]

theorem Mixed.inOrder_putAll (h : c.Mixed) (ho : c.InOrder) (hxs : ∀ x ∈ xs, x.kind?.isSome = true) :
    (c.putAll xs).InOrder := by
  induction xs generalizing c with
  | nil => exact ho
  | cons x xs ih =>
    have hx := hxs x (by simp)
    exact ih (h.put hx) (h.inOrder_put ho hx) fun y hy => hxs y (List.mem_cons_of_mem x hy)

end Chart

namespace Operation

/-- On a chart that was offered dotted rules and constituents only, in any order, the items between two positions are
those of the items to the second that start at the first, in the same order. -/
theorem indices_enumerate_alike {xs : List Item} (hxs : ∀ x ∈ xs, x.kind?.isSome = true) (n : Nat) (source : String)
    {u v : Value} {i j : Nat} (hu : u.int? = some (i : Int)) (hv : v.int? = some (j : Int)) (hij : i ≤ j) (hj : j ≤ n) :
    ∃ items, (run n source (xs.map .insert)).chart.itemsTo v = .ok items ∧
      (run n source (xs.map .insert)).chart.itemsSpanning u v = .ok (items.filter (startsAt i)) := by
  have horder := (Chart.mixed_empty n).inOrder_putAll (Chart.inOrder_empty n) hxs
  have hlen : j ≤ ((Chart.empty n).putAll xs).length := by
    rw [Chart.length_putAll]
    exact hj
  rw [run_inserts]
  refine ⟨_, Chart.itemsTo_of_int? hv hlen, ?_⟩
  rw [Chart.itemsSpanning_of_int? hu hv hij hlen, horder i j]
  rfl

/-- Symbols that look like the end of an id, dots off their rules, and positions written in two ways. -/
def oddItems : List Item :=
  [.cyk ⟨"A, 0", ["a"]⟩ (.between 0 1) [.word "a"], .earley ⟨"A, 0, 1)", ["[0, 1"]⟩ 7 ⟨.bool false, .bool true⟩ [],
    .earley ⟨"A", ["a b"]⟩ (-1) (.between 1 1) [], .cyk ⟨"A", ["a"]⟩ (.between 0 1) [.word "a"],
    .cyk ⟨"A, 0", ["b"]⟩ (.between 0 1) [.word "b"]]

/-- The last of these has the id of the first, and comes to stand behind it. -/
theorem indices_enumerate_alike_oddItems :
    ((∀ x ∈ oddItems, x.kind?.isSome = true) ∧ (Value.bool false).int? = some (0 : Nat) ∧
        (Value.int 1).int? = some (1 : Nat)) ∧
      ∃ items, (run 1 Chart.logName (oddItems.map .insert)).chart.itemsTo (.int 1) = .ok items ∧
        (run 1 Chart.logName (oddItems.map .insert)).chart.itemsSpanning (.bool false) (.int 1) =
          .ok (items.filter (startsAt 0)) ∧
        (items.filter (startsAt 0)).map Item.rule? = [some ⟨"A, 0", ["a"]⟩, some ⟨"A, 0", ["b"]⟩,
          some ⟨"A, 0, 1)", ["[0, 1"]⟩, some ⟨"A", ["a"]⟩] := by
  have hkinds : ∀ x ∈ oddItems, x.kind?.isSome = true := by decide
  obtain ⟨items, hitems, hcell⟩ := indices_enumerate_alike (i := 0) (j := 1) (n := 1) hkinds Chart.logName (u := .bool false)
    (v := .int 1) rfl rfl (by decide) (by decide)
  refine ⟨⟨hkinds, rfl, rfl⟩, items, hitems, hcell, ?_⟩
  cases hitems
  rfl

end Operation

end ParseChart
