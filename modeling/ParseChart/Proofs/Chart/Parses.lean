import ParseChart.Proofs.Chart.Answers
import ParseChart.Proofs.Chart.Kinds
import ParseChart.Proofs.Chart.Plain
import ParseChart.Proofs.Derivation
/-!
# The parses on a chart

Of a dotted rule or a constituent it can be asked whether it is complete and for a symbol, so on a chart of
these the questions about parses are filters of the cell over the whole input. If there is one kind of items
they are answered by the derivation trees, once the complete items over the whole input are known to be those
of the trees.
-/

namespace ParseChart

open ChartItem

namespace Item

variable {x : Item} {k : Kind} {symbol : String}

def isParse (symbol : String) (k : Kind) (x : Item) : Bool :=
  x.isOf k && x.derives symbol && x.isComplete? == some true

theorem derives?_eq (h : x.kind?.isSome = true) : derives? symbol x = some (x.derives symbol) := by
  cases x with
  | earley | cyk => rfl
  | _ => cases h

theorem isParse?_eq (h : x.isOf k = true) : isParse? symbol x = some (x.isParse symbol k) := by
  have hkind := kind_isSome h
  obtain ⟨complete, hcomplete⟩ := Option.isSome_iff_exists.1 (isComplete_isSome hkind)
  have hcomplete' : ChartItem.isComplete? x = some complete := hcomplete
  unfold isParse? isParse
  rw [derives?_eq hkind, hcomplete', h, hcomplete]
  cases x.derives symbol <;> cases complete <;> rfl

end Item

namespace Chart

variable {c : Chart Item} {i j : Nat}

/-- A plain item with a place is a dotted rule or a constituent. -/
theorem Filed.mixed (h : c.Filed) (hc : c.Plain) : c.Mixed := by
  refine ⟨h, fun x hx => ?_⟩
  obtain ⟨p, hp⟩ := h.place_of_mem hx
  have hid : x.id? = some p.id := (place_eq_ok hp).1
  have hplain := hc x hx
  cases x <;> simp [Item.id?, Item.plain, Item.kind?] at hid hplain ⊢

/-- The part of a kind has, in order, the items of that kind. -/
theorem Mixed.cell_only (h : c.Mixed) (k : Kind) (i j : Nat) :
    (c.only k).cell i j = (c.cell i j).filter (·.isOf k) := by
  unfold cell
  rw [h.elems_from, List.filter_filter, List.filter_filter]
  apply List.filter_congr
  intro x _
  exact Bool.and_comm _ _

theorem Mixed.completeItemsSpanning_int (h : c.Mixed) (hij : i ≤ j) (hj : j ≤ c.length) :
    c.completeItemsSpanning (.int i) (.int j) = .ok ((c.cell i j).filter fun x => x.isComplete? == some true) := by
  unfold completeItemsSpanning
  rw [itemsSpanning_int hij hj]
  exact select_eq_ok fun x hx => Item.isComplete_isSome (h.kinds x (h.filed.mem_of_cell hx))

theorem Filed.completeItemsSpanning_int (h : c.Filed) (hc : c.Plain) (hij : i ≤ j) (hj : j ≤ c.length) :
    c.completeItemsSpanning (.int i) (.int j) = .ok ((c.cell i j).filter fun x => x.isComplete? == some true) :=
  (h.mixed hc).completeItemsSpanning_int hij hj

theorem Mixed.fullParseItems_eq (h : c.Mixed) (symbol : String) :
    c.fullParseItems symbol =
      .ok (((c.cell 0 c.length).filter fun x => x.isComplete? == some true).filter (·.derives symbol)) := by
  have hitems := h.completeItemsSpanning_int (Nat.zero_le _) (Nat.le_refl c.length)
  have hderives : ∀ x ∈ (c.cell 0 c.length).filter fun x => x.isComplete? == some true,
      derives? symbol x = some (x.derives symbol) := fun x hx =>
    Item.derives?_eq (h.kinds x (h.filed.mem_of_cell (List.mem_of_mem_filter hx)))
  rw [Int.natCast_zero] at hitems
  unfold fullParseItems
  rw [hitems]
  refine (select_eq_ok fun x hx => by rw [hderives x hx]; rfl).trans (congrArg Except.ok (List.filter_congr ?_))
  intro x hx
  rw [hderives x hx]
  cases x.derives symbol <;> rfl

theorem Filed.fullParseItems_eq (h : c.Filed) (hc : c.Plain) (symbol : String) :
    c.fullParseItems symbol =
      .ok (((c.cell 0 c.length).filter fun x => x.isComplete? == some true).filter (·.derives symbol)) :=
  (h.mixed hc).fullParseItems_eq symbol

/-- Among the items of a kind, the question whether they are a parse has an answer. -/
theorem select_isParse (symbol : String) (kind : Kind) (items : List Item) :
    select (isParse? symbol) (items.filter fun x => kind? x == some kind) =
      .ok (items.filter (Item.isParse symbol kind)) := by
  have hparse : ∀ x ∈ items.filter fun x => kind? x == some kind, isParse? symbol x = some (x.isParse symbol kind) :=
    fun x hx => Item.isParse?_eq (List.mem_filter.1 hx).2
  refine (select_eq_ok fun x hx => by rw [hparse x hx]; rfl).trans (congrArg Except.ok ?_)
  rw [List.filter_congr fun x hx => congrArg (· == some true) (hparse x hx), List.filter_filter]
  apply List.filter_congr
  intro x _
  show (some (x.isParse symbol kind) == some true && x.isOf kind) = x.isParse symbol kind
  unfold Item.isParse
  cases x.isOf kind <;> cases x.derives symbol <;> cases x.isComplete? == some true <;> rfl

/-- The trees of a chart, from those of the items that are a parse. -/
theorem parseTrees_eq_ok {symbol : String} {kind : Kind} {trees : List Tree}
    (ht : ((c.cell 0 c.length).filter (Item.isParse symbol kind)).mapM Item.tree? = some trees) :
    c.parseTrees symbol kind = .ok trees := by
  have hitems := itemsSpanning_int (c := c) (Nat.zero_le _) (Nat.le_refl c.length)
  have htrees : ((c.cell 0 c.length).filter (Item.isParse symbol kind)).mapM tree? = some trees := ht
  rw [Int.natCast_zero] at hitems
  simp only [parseTrees, hitems, select_isParse, bind, Except.bind, htrees]

/-! ## One kind of items -/

variable {g : Grammar} {symbol : String} {kind : Kind} {words : List String}

/-- The items that are a parse. -/
def parses (c : Chart Item) (symbol : String) (kind : Kind) : List Item := (c.cell 0 c.length).filter (Item.isParse symbol kind)

theorem Filed.fullParseItems_eq_parses (h : c.Filed) (hc : c.Plain) (hkind : ∀ x ∈ c, x.kind? = some kind)
    (symbol : String) :
    c.fullParseItems symbol = .ok (c.parses symbol kind) := by
  rw [h.fullParseItems_eq hc, parses, List.filter_filter]
  congr 1
  apply List.filter_congr
  intro x hx
  unfold Item.isParse Item.isOf
  rw [hkind x (h.mem_of_cell hx)]
  simp

/-- If the parses are the items of the derivation trees, these are what is answered, each tree once. -/
theorem Filed.answers_of_parses (h : c.Filed) (hc : c.Plain) (hkind : ∀ x ∈ c, x.kind? = some kind)
    (hm : ∀ x, x ∈ c.parses symbol kind ↔ ∃ t, g.Parses symbol words t ∧ x = t.item kind 0) :
    (∃ trees, c.parseTrees symbol kind = .ok trees ∧ trees.Nodup ∧ ∀ t, t ∈ trees ↔ g.Parses symbol words t) ∧
      ∃ items, c.fullParseItems symbol = .ok items ∧ ((!items.isEmpty) = true ↔ ∃ t, g.Parses symbol words t) := by
  constructor
  · have hn : (c.parses symbol kind).Nodup := h.nodup_cell.filter _
    obtain ⟨trees, ht, hnodup, hmem⟩ := Grammar.trees_of_items hn hm
    exact ⟨trees, parseTrees_eq_ok ht, hnodup, hmem⟩
  · refine ⟨_, h.fullParseItems_eq_parses hc hkind symbol, ?_⟩
    rw [Bool.not_eq_true', List.isEmpty_eq_false_iff]
    constructor
    · intro hne
      obtain ⟨x, hx⟩ := List.exists_mem_of_ne_nil _ hne
      obtain ⟨t, ht, -⟩ := (hm x).1 hx
      exact ⟨t, ht⟩
    · rintro ⟨t, ht⟩
      exact List.ne_nil_of_mem ((hm _).2 ⟨t, ht, rfl⟩)

end Chart

end ParseChart
