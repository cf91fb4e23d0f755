import ParseChart.Proofs.Chart.Twins
import ParseChart.Proofs.Item
/-!
# Equal items on a chart

A chart compares items only under one id, and the id of a dotted rule or a constituent spells out its
positions. A truth value is spelled otherwise than the number that it equals, so an item is found again
by an equal one iff the positions of the two are written alike; items of other parsers are always found.
-/

namespace ParseChart

open ChartItem

/-! ## Ids of equal items -/

/-- Behind the same words, a span is written in the same way iff its positions are. -/
theorem Span.spelled_iff {s t : Span} {i j k l : Nat} (hs : s.start.int? = some (i : Int)) (ht : t.start.int? = some (k : Int))
    (hs' : s.stop.int? = some (j : Int)) (ht' : t.stop.int? = some (l : Int)) (front : String) :
    front ++ ", " ++ s.start.display ++ ", " ++ s.stop.display ++ ")" =
      front ++ ", " ++ t.start.display ++ ", " ++ t.stop.display ++ ")" ↔ s.start = t.start ∧ s.stop = t.stop := by
  constructor
  · intro h
    obtain ⟨-, rfl⟩ := read_inj hs hs' ht ht' h
    exact ⟨rfl, rfl⟩
  · rintro ⟨h, h'⟩
    rw [h, h']

namespace Item

/-- The items are of another parser, or both have their positions written in one way. -/
def SpelledAlike (x y : Item) : Prop := x.kind? = none ∨ x.start? = y.start? ∧ x.stop? = y.stop?

end Item

namespace Chart

/-- Equal items have equal ids iff they are spelled alike. -/
theorem id_beq_iff {c : Chart Item} {x y : Item} {p q : Place} (h : (x == y) = true) (hx : c.place x = .ok p)
    (hy : c.place y = .ok q) : (p.id == q.id) = true ↔ x.SpelledAlike y := by
  obtain ⟨hid, ⟨u, hu, hi⟩, ⟨v, hv, hj⟩, -⟩ := place_eq_ok hx
  obtain ⟨hid', ⟨u', hu', hi'⟩, ⟨v', hv', hj'⟩, -⟩ := place_eq_ok hy
  rw [Item.beq_eq_same] at h
  cases x with
  | word => cases hid
  | earley r d s xs =>
    cases y <;> simp only [Item.same, Bool.and_eq_true, beq_iff_eq, Bool.false_eq_true] at h
    obtain ⟨⟨⟨rfl, rfl⟩, -⟩, -⟩ := h
    cases hu
    cases hv
    cases hu'
    cases hv'
    rw [← Option.some.inj hid, ← Option.some.inj hid', Value.text_beq, Span.spelled_iff hi hi' hj hj']
    simp [Item.SpelledAlike, Item.kind?, Item.start?, Item.stop?]
  | cyk r s xs =>
    cases y <;> simp only [Item.same, Bool.and_eq_true, beq_iff_eq, Bool.false_eq_true] at h
    obtain ⟨⟨rfl, -⟩, -⟩ := h
    cases hu
    cases hv
    cases hu'
    cases hv'
    rw [← Option.some.inj hid, ← Option.some.inj hid', Value.text_beq, Span.spelled_iff hi hi' hj hj']
    simp [Item.SpelledAlike, Item.kind?, Item.start?, Item.stop?]
  | node i s r b xs =>
    cases y <;> simp only [Item.same, Bool.and_eq_true, beq_iff_eq, Bool.false_eq_true] at h
    cases hid
    cases hid'
    exact iff_of_true h.1.1.1.1 (.inl rfl)
  | bare n i s t =>
    cases y <;> simp only [Item.same, Bool.and_eq_true, beq_iff_eq, Bool.false_eq_true] at h
    have hids := h.1.1.2
    simp only [ChartItem.id?, Item.id?] at hid hid'
    rw [hid, hid', Option.some_beq_some] at hids
    exact iff_of_true hids (.inl rfl)

theorem twin_iff_alike {c : Chart Item} {x y : Item} {p q : Place} (hx : c.place x = .ok p) (hy : c.place y = .ok q) :
    Twin x y ↔ (x == y) = true ∧ x.SpelledAlike y := by
  refine and_congr_right fun he => ?_
  rw [beq_id_of_place hx hy, id_beq_iff he hx hy]

/-! ## What a chart finds and stores -/

variable {c : Chart Item}

/-- An item is found iff one that is equal and spelled alike is there. -/
theorem Filed.holds_iff_alike (h : c.Filed) {y : Item} {p : Place} (hy : c.place y = .ok p) :
    c.holds p y = true ↔ ∃ x, x ∈ c ∧ (x == y) = true ∧ x.SpelledAlike y := by
  rw [h.holds_iff_twin hy]
  refine exists_congr fun x => and_congr_right fun hx => ?_
  obtain ⟨q, hq⟩ := h.place_of_mem hx
  exact twin_iff_alike hq hy

theorem exists_row {rows : List (Row Item)} {x : Item} (hx : x ∈ rows.flatMap Buckets.elems) :
    ∃ i, x ∈ (rows.getD i []).elems := by
  obtain ⟨row, hrow, hx⟩ := List.mem_flatMap.1 hx
  obtain ⟨i, hi, rfl⟩ := List.mem_iff_getElem.1 hrow
  exact ⟨i, by rwa [List.getD_eq_getElem?_getD, List.getElem?_eq_getElem hi]⟩

/-- Where no two stored items are twins, no two equal ones are spelled alike. -/
theorem pairwise_alike {rows : List (Row Item)} (h : (rows.flatMap Buckets.elems).Pairwise fun x y => ¬ Twin x y)
    (hplaced : ∀ i, ∀ x ∈ (rows.getD i []).elems, ∃ p, c.place x = .ok p) :
    (rows.flatMap Buckets.elems).Pairwise fun x y => (x == y) = true → ¬ x.SpelledAlike y := by
  refine h.imp_of_mem fun {x y} hx hy hne he halike => hne ?_
  obtain ⟨i, hx⟩ := exists_row hx
  obtain ⟨j, hy⟩ := exists_row hy
  obtain ⟨p, hp⟩ := hplaced i x hx
  obtain ⟨q, hq⟩ := hplaced j y hy
  exact (twin_iff_alike hp hq).2 ⟨he, halike⟩

end Chart

namespace Operation

/-- At each moment of a run an item that the chart admits is found, and then not added, iff an equal one is there that is
spelled alike. So that an item is found again by an equal one, whatever was done before and since, it takes that the
two are spelled alike; and of two equal items stored anywhere, each is spelled in its own way. -/
theorem equal_found_iff_alike (n : Nat) (source : String) :
    (∀ ops (y : Item), (∃ p, (Chart.empty n).place y = .ok p) → ∃ found,
      ((ChartM.contains y).run.run (run n source ops)).1 = .ok found ∧
        ((ChartM.insert y).run.run (run n source ops)).1 = .ok (!found) ∧
        (found = true ↔ ∃ x, x ∈ (run n source ops).chart ∧ (x == y) = true ∧ x.SpelledAlike y)) ∧
    (∀ x y : Item, (∃ p, (Chart.empty n).place x = .ok p) → (∃ p, (Chart.empty n).place y = .ok p) → (x == y) = true →
      ((∀ ops more, ((ChartM.contains y).run.run (run n source (ops ++ .insert x :: more))).1 = .ok true ∧
        ((ChartM.insert y).run.run (run n source (ops ++ .insert x :: more))).1 = .ok false) ↔ x.SpelledAlike y)) ∧
    ∀ ops : List (Operation Item),
      ((run n source ops).chart.outgoing.flatMap Buckets.elems).Pairwise
          (fun x y => (x == y) = true → ¬ x.SpelledAlike y) ∧
        ((run n source ops).chart.incoming.flatMap Buckets.elems).Pairwise
          fun x y => (x == y) = true → ¬ x.SpelledAlike y := by
  refine ⟨fun ops y hy => ?_, fun x y hx hy he => ⟨fun hfound => ?_, fun halike ops more => ?_⟩, fun ops => ?_⟩
  · obtain ⟨p, hp⟩ := hy
    rw [← place_run n source ops] at hp
    obtain ⟨hcontains, hinsert⟩ := contains_answer hp
    exact ⟨_, hcontains, hinsert, (filed_run n source ops).1.holds_iff_alike hp⟩
  · -- On the chart of one insertion nothing but the item itself can be found.
    obtain ⟨p, hp⟩ := hy
    obtain ⟨q, hq⟩ := hx
    have hf := (filed_run n source [.insert x]).1
    rw [← place_run n source [.insert x]] at hp
    have hanswer := (hfound [] []).1
    rw [List.nil_append, (contains_answer hp).1, Except.ok.injEq] at hanswer
    obtain ⟨u, hu, -, halike⟩ := (hf.holds_iff_alike hp).1 hanswer
    rw [run, List.foldl_cons, List.foldl_nil, perform_insert, (ChartM.insert_outcome _ _).1] at hu
    rcases (Chart.filed_empty n).mem_put.1 hu with hu | ⟨rfl, -⟩
    · exact absurd hu (Chart.not_mem_empty n u)
    · exact halike
  · obtain ⟨p, hp⟩ := hy
    obtain ⟨q, hq⟩ := hx
    obtain ⟨xs, hc⟩ := exists_run_insert n source ops more x
    have hpy := hp
    rw [← place_run n source (ops ++ .insert x :: more)] at hpy
    rw [← place_run n source ops] at hp hq
    have hholds := (filed_run n source ops).1.holds_of_offered hq hp ((Chart.twin_iff_alike hq hp).2 ⟨he, halike⟩) xs
    rw [(contains_answer hpy).1, (contains_answer hpy).2, hc, hholds]
    exact ⟨rfl, rfl⟩
  · obtain ⟨hf, hd⟩ := filed_run n source ops
    exact ⟨Chart.pairwise_alike (hf.pairwise_outgoing hd) fun i x hx => hf.place_of_mem (hf.mem_of_rowFrom hx),
      Chart.pairwise_alike (hf.pairwise_incoming hd) fun j x hx => hf.place_of_mem ⟨j, hx⟩⟩

/-- A constituent of one word, its positions written as given. -/
def overWord (s : Span) : Item := .cyk ⟨"A", ["a"]⟩ s [.word "a"]

/-- A complete item over one that has its positions written as given. -/
def overChild (s : Span) : Item := .earley ⟨"S", ["A"]⟩ 1 (.between 0 1) [.earley ⟨"A", ["a"]⟩ 1 s [.word "a"]]

/-- What is written below an item makes no difference. -/
theorem equal_found_iff_alike_overChild :
    ((∃ p, (Chart.empty 1).place (overChild (.between 0 1)) = .ok p) ∧
        (∃ p, (Chart.empty 1).place (overChild ⟨.bool false, .bool true⟩) = .ok p) ∧
        (overChild (.between 0 1) == overChild ⟨.bool false, .bool true⟩) = true) ∧
      ∀ ops more,
        ((ChartM.contains (overChild ⟨.bool false, .bool true⟩)).run.run
            (run 1 Chart.logName (ops ++ .insert (overChild (.between 0 1)) :: more))).1 = .ok true ∧
          ((ChartM.insert (overChild ⟨.bool false, .bool true⟩)).run.run
            (run 1 Chart.logName (ops ++ .insert (overChild (.between 0 1)) :: more))).1 = .ok false :=
  ⟨⟨⟨_, rfl⟩, ⟨_, rfl⟩, rfl⟩, ((equal_found_iff_alike 1 Chart.logName).2.1 _ _ ⟨_, rfl⟩ ⟨_, rfl⟩ rfl).2 (.inr ⟨rfl, rfl⟩)⟩

/-- What is written in its own span does: the equal item is not found, and stored beside the other. -/
theorem equal_overWord_not_found :
    ((∃ p, (Chart.empty 1).place (overWord (.between 0 1)) = .ok p) ∧
        (∃ p, (Chart.empty 1).place (overWord ⟨.bool false, .bool true⟩) = .ok p) ∧
        (overWord (.between 0 1) == overWord ⟨.bool false, .bool true⟩) = true) ∧
      ((ChartM.contains (overWord ⟨.bool false, .bool true⟩)).run.run
          (run 1 Chart.logName [.insert (overWord (.between 0 1))])).1 = .ok false ∧
        ((ChartM.insert (overWord ⟨.bool false, .bool true⟩)).run.run
          (run 1 Chart.logName [.insert (overWord (.between 0 1))])).1 = .ok true ∧
        (run 1 Chart.logName [.insert (overWord (.between 0 1)),
          .insert (overWord ⟨.bool false, .bool true⟩)]).chart.itemCount = 2 :=
  ⟨⟨⟨_, rfl⟩, ⟨_, rfl⟩, rfl⟩, rfl, rfl, rfl⟩

end Operation

end ParseChart
