import Mathlib.Data.List.Basic
import ParseChart.Proofs.Chart.Insertions
import ParseChart.Proofs.Chart.Plain
import ParseChart.Proofs.Earley.Items
import ParseChart.Proofs.Earley.Loop
/-!
# Closures

One treated item offers what follows from it (`treat_inserting`). `Progress` is the invariant of the loop:
the chart holds reached items only, and those up to the position being closed are settled but for the
queue, that is, all that follows from them is on the chart. It is kept by each step and so by the whole
loop, which ends if the items that can be reached at the position are finitely many.
-/

namespace ParseChart.Earley

open ChartItem ChartM

variable {p : Earley} {w : List String} {c : Chart Item}

/-- All items on the chart are dotted rules between whole positions, whatever their children are. -/
def Formed (c : Chart Item) : Prop := ∀ x ∈ c, ∃ r d i j cs, x = dotted r d i j cs

/-- All items on the chart are dotted rules between whole positions over plain items. -/
def Dotted (c : Chart Item) : Prop := ∀ x ∈ c, ∃ r d i j cs, x = dotted r d i j cs ∧ Item.plainAll cs = true

theorem Dotted.plain (h : Dotted c) : c.Plain := fun x hx => by
  obtain ⟨r, d, i, j, cs, rfl, hcs⟩ := h x hx
  rwa [plain_dotted]

theorem Dotted.formed (h : Dotted c) : Formed c := fun x hx => by
  obtain ⟨r, d, i, j, cs, rfl, -⟩ := h x hx
  exact ⟨r, d, i, j, cs, rfl⟩

/-! ## One item -/

/-- What an item at `k` gives rise to on a chart. -/
inductive Follows (p : Earley) (w : List String) (c : Chart Item) (r : Rule) (d i k : Nat) (cs : List Item) : Item → Prop
  | predict {s} : s ∈ p.grammar.rules → r.rhs[d]? = some s.lhs → Follows p w c r d i k cs (dotted s 0 k k [])
  | scan {a} : r.rhs[d]? = some a → p.grammar.isTerminal a = true → w[k]? = some a →
      Follows p w c r d i k cs (dotted r (d + 1) i (k + 1) (cs ++ [.word a]))
  | complete {r' d' i' cs'} : r.rhs[d]? = none → dotted r' d' i' i cs' ∈ c → r'.rhs[d']? = some r.lhs →
      Follows p w c r d i k cs (dotted r' (d' + 1) i' k (cs' ++ [dotted r d i k cs]))

/-- The advances over a complete item for `symbol` of the parents that wait for it. -/
def advances (symbol : String) (child : Item) (k : Nat) (parents : List Item) : List Item :=
  parents.filterMap fun
    | .earley r d span cs =>
      if r.rhs[d.toNat]? = some symbol then some (.earley r (d + 1) ⟨span.start, .int k⟩ (cs ++ [child])) else none
    | _ => none

/-- The items that a treated item offers. -/
def offers (p : Earley) (w : List String) (c : Chart Item) (r : Rule) (d i k : Nat) (cs : List Item) : List Item :=
  match r.rhs[d]? with
  | none => advances r.lhs (dotted r d i k cs) k (c.rowTo i).elems
  | some a =>
    if !p.grammar.isTerminal a then (p.grammar.rulesFor a).map fun s => dotted s 0 k k []
    else if w[k]? = some a then [dotted r (d + 1) i (k + 1) (cs ++ [.word a])]
    else []

theorem completed?_eq {parents : List Item} (h : ∀ x ∈ parents, ∃ r d i j cs, x = dotted r d i j cs) (symbol : String)
    (child : Item) (k : Nat) :
    parents.filterMap (completed? symbol child k) = (advances symbol child k parents).map .ok := by
  unfold advances
  rw [List.map_filterMap]
  apply List.filterMap_congr
  intro x hx
  obtain ⟨r, d, i, j, cs, rfl⟩ := h x hx
  simp only [completed?, dotted, Item.kind?, Item.nextSymbol, symbolAt_nat, Int.toNat_natCast, beq_iff_eq]
  split <;> rfl

theorem mem_advances {parents : List Item} (h : ∀ x ∈ parents, ∃ r d i j cs, x = dotted r d i j cs) {symbol : String}
    {child : Item} {k : Nat} {y : Item} :
    y ∈ advances symbol child k parents ↔ ∃ r d i j cs, dotted r d i j cs ∈ parents ∧ r.rhs[d]? = some symbol ∧
      y = dotted r (d + 1) i k (cs ++ [child]) := by
  unfold advances
  rw [List.mem_filterMap]
  constructor
  · rintro ⟨x, hx, hy⟩
    obtain ⟨r, d, i, j, cs, rfl⟩ := h x hx
    simp only [dotted, Int.toNat_natCast] at hy
    split at hy
    · exact ⟨r, d, i, j, cs, hx, ‹_›, (Option.some.inj hy).symm⟩
    · cases hy
  · rintro ⟨r, d, i, j, cs, hx, hs, rfl⟩
    exact ⟨_, hx, by simp [dotted, hs, Span.between]⟩

section Treat

variable {r : Rule} {d i k : Nat} {cs : List Item}

theorem mem_offers (hf : c.Filed) (hd : Formed c) {y : Item} :
    y ∈ p.offers w c r d i k cs ↔ Follows p w c r d i k cs y := by
  have hrow : ∀ x ∈ (c.rowTo i).elems, ∃ r d i j cs, x = dotted r d i j cs := fun x hx => hd x ⟨i, hx⟩
  unfold offers
  constructor
  · intro hy
    split at hy
    · rename_i hn
      obtain ⟨r', d', i', j', cs', hm, hs, rfl⟩ := (mem_advances hrow).1 hy
      obtain ⟨hc, rfl⟩ := (over_dotted.mem_rowTo hf i).1 hm
      exact .complete hn hc hs
    · rename_i a ha
      split at hy
      · obtain ⟨s, hs, rfl⟩ := List.mem_map.1 hy
        obtain ⟨hr, rfl⟩ := Grammar.mem_rulesFor.1 hs
        exact .predict hr ha
      · rename_i ht
        split at hy
        · obtain rfl := List.mem_singleton.1 hy
          exact .scan ha (by simpa using ht) ‹_›
        · cases hy
  · rintro (⟨hs, ha⟩ | ⟨ha, ht, hw⟩ | ⟨hn, hm, hs⟩)
    · simp only [ha, Grammar.isTerminal_eq_false hs, Bool.not_false, if_true]
      exact List.mem_map.2 ⟨_, Grammar.mem_rulesFor.2 ⟨hs, rfl⟩, rfl⟩
    · simp [ha, ht, hw]
    · simp only [hn]
      exact (mem_advances hrow).2 ⟨_, _, _, _, _, (over_dotted.mem_rowTo hf i).2 ⟨hm, rfl⟩, hs, rfl⟩

/-- What follows from an item at `k` stops there or one later. -/
theorem Follows.stop_bounds {r' : Rule} {d' i' j' : Nat} {cs' : List Item}
    (h : Follows p w c r d i k cs (dotted r' d' i' j' cs')) : k ≤ j' ∧ j' ≤ k + 1 := by
  generalize hy : dotted r' d' i' j' cs' = y at h
  cases h <;> obtain ⟨-, -, -, rfl, -⟩ := dotted_inj hy <;> omega

theorem Follows.plain (hd : Dotted c) (hcs : Item.plainAll cs = true) {y : Item} (h : Follows p w c r d i k cs y) :
    y.plain = true := by
  cases h with
  | predict => rfl
  | scan => simp [plain_dotted, Item.plainAll_append, Item.plainAll, Item.plain, hcs]
  | complete _ hm _ =>
    obtain ⟨r', d', i', j', cs', he, hcs'⟩ := hd _ hm
    obtain ⟨-, -, -, -, rfl⟩ := dotted_inj he
    simp [plain_dotted, Item.plainAll_append, Item.plainAll, hcs, hcs']

variable (hf : c.Filed) (hik : i ≤ k) (hk : k ≤ c.length) (hw : w.length ≤ c.length)
include hf hik hk hw

/-- It stops one later only if it is scanned. -/
theorem Follows.exists_dotted {y : Item} (h : Follows p w c r d i k cs y) :
    ∃ r' d' i' j' cs', y = dotted r' d' i' j' cs' ∧ i' ≤ j' ∧ j' ≤ c.length ∧
      (j' = k ∨ j' = k + 1 ∧ ∃ a, r.rhs[d]? = some a ∧ p.grammar.isTerminal a = true) := by
  cases h with
  | predict => exact ⟨_, _, _, _, _, rfl, Nat.le_refl _, hk, .inl rfl⟩
  | scan ha ht hwk =>
    have := (List.getElem?_eq_some_iff.1 hwk).1
    exact ⟨_, _, _, _, _, rfl, by omega, by omega, .inr ⟨rfl, _, ha, ht⟩⟩
  | complete _ hm _ =>
    have := over_dotted.bounds hf hm
    exact ⟨_, _, _, _, _, rfl, by omega, hk, .inl rfl⟩

theorem Follows.placed {y : Item} (h : Follows p w c r d i k cs y) : ∃ q, c.place y = .ok q := by
  obtain ⟨r', d', i', j', cs', rfl, hij, hj, -⟩ := h.exists_dotted hf hik hk hw
  obtain ⟨id, hp⟩ := over_dotted.place c hij hj
  exact ⟨_, hp⟩

theorem mem_treated (hd : Dotted c) (hcs : Item.plainAll cs = true) {y : Item} :
    y ∈ c.putAll (p.offers w c r d i k cs) ↔ y ∈ c ∨ Follows p w c r d i k cs y := by
  rw [hf.mem_putAll_iff hd.plain, mem_offers hf hd.formed]
  intro y hy
  have hfollows := (mem_offers hf hd.formed).1 hy
  exact ⟨hfollows.plain hd hcs, hfollows.placed hf hik hk hw⟩

/-- Treating an item offers what follows from it to the chart and answers what of that is new at `k`. -/
theorem treat_inserting (hd : Formed c) :
    Inserting (p.treat w k (dotted r d i k cs)) c ((c.newOf (p.offers w c r d i k cs)).filter (stopsAt k))
      (c.attempts (p.offers w c r d i k cs)) (c.putAll (p.offers w c r d i k cs)) := by
  have hplaced : ∀ y ∈ p.offers w c r d i k cs, ∃ q, c.place y = .ok q := fun y hy =>
    (mem_offers hf hd).1 hy |>.placed hf hik hk hw
  -- Unless a terminal stands after the dot, all that is new stops at `k`.
  have hall : (∀ a, r.rhs[d]? = some a → p.grammar.isTerminal a = false) →
      (c.newOf (p.offers w c r d i k cs)).filter (stopsAt k) = c.newOf (p.offers w c r d i k cs) := fun hn => by
    apply List.filter_eq_self.2
    intro y hy
    obtain ⟨r', d', i', j', cs', rfl, -, -, rfl | ⟨-, a, ha, ht⟩⟩ :=
      ((mem_offers hf hd).1 (Chart.newOf_subset hy)).exists_dotted hf hik hk hw
    · exact (over_dotted.stopsAt _).2 rfl
    · simp [hn a ha] at ht
  show Inserting (ofExcept (r.symbolAt d) >>= _) _ _ _ _
  apply (inserting_ofExcept (symbolAt_nat r d) c).bind
  cases hsym : r.rhs[d]? with
  | none =>
    rw [hall (by simp [hsym])]
    simp only [offers, hsym] at hplaced ⊢
    apply (inserting_itemsTo (Nat.le_trans hik hk)).bind
    rw [completed?_eq fun x hx => hd x ⟨i, hx⟩]
    exact inserting_offer hplaced
  | some a =>
    cases ht : p.grammar.isTerminal a with
    | false =>
      rw [hall (by simp [hsym, ht])]
      simp only [offers, hsym, ht, Bool.not_false, if_true] at hplaced ⊢
      have h := inserting_offer hplaced
      rw [List.map_map] at h
      exact h
    | true =>
      by_cases hwk : w[k]? = some a
      · simp only [offers, hsym, ht, hwk, Bool.not_true, if_true, Bool.false_eq_true, if_false] at hplaced ⊢
        simp only [Int.toNat_natCast, hwk, beq_self_eq_true, if_true]
        rw [Chart.filter_newOf_of_ne (List.forall_mem_singleton.2 ⟨i, k + 1, over_dotted, Nat.succ_ne_self k⟩)]
        exact (inserting_offer hplaced).bind_nil (inserting_pure [] _)
      · simp only [offers, hsym, ht, hwk, Bool.not_true, Bool.false_eq_true, if_false]
        simp only [Int.toNat_natCast, hwk, beq_iff_eq, if_false]
        exact inserting_pure [] c

theorem treat_yields (hd : Formed c) :
    Yields (p.treat w k (dotted r d i k cs)) c ((c.newOf (p.offers w c r d i k cs)).filter (stopsAt k))
      (c.putAll (p.offers w c r d i k cs)) := (treat_inserting hf hik hk hw hd).yields

end Treat

/-! ## The loop -/

def Settled (p : Earley) (w : List String) (c : Chart Item) (r : Rule) (d i k : Nat) (cs : List Item) : Prop :=
  ∀ y, Follows p w c r d i k cs y → y ∈ c

/-- The closure at `k` has a queue left. -/
structure Progress (p : Earley) (w : List String) (k : Nat) (queue : List Item) (c : Chart Item) : Prop where
  filed : c.Filed
  length : c.length = w.length
  started : p.startItem ∈ c
  reached : ∀ x ∈ c, ∃ r d i j cs, x = dotted r d i j cs ∧ Reached p w r d i j cs
  upto : ∀ r d i j cs, dotted r d i j cs ∈ c → j ≤ k + 1
  queued : ∀ x ∈ queue, x ∈ c ∧ stopsAt k x = true
  settled : ∀ r d i j cs, dotted r d i j cs ∈ c → j ≤ k → dotted r d i j cs ∈ queue ∨ Settled p w c r d i j cs

variable {k : Nat} {queue : List Item} {r : Rule} {d i j : Nat} {cs : List Item}

theorem Progress.all_dotted (h : Progress p w k queue c) : Dotted c := fun x hx => by
  obtain ⟨r, d, i, j, cs, rfl, hr⟩ := h.reached x hx
  exact ⟨r, d, i, j, cs, rfl, hr.plain⟩

theorem Progress.reached_of_mem (h : Progress p w k queue c) (hx : dotted r d i j cs ∈ c) :
    Reached p w r d i j cs := by
  obtain ⟨r', d', i', j', cs', he, hr⟩ := h.reached _ hx
  obtain ⟨rfl, rfl, rfl, rfl, rfl⟩ := dotted_inj he
  exact hr

/-- What follows from a reached item on a chart of reached items is reached. -/
theorem Progress.follows (h : Progress p w k queue c) (hx : Reached p w r d i j cs) {y : Item}
    (hy : Follows p w c r d i j cs y) :
    ∃ r' d' i' j' cs', y = dotted r' d' i' j' cs' ∧ Reached p w r' d' i' j' cs' := by
  cases hy with
  | predict hs hd => exact ⟨_, _, _, _, _, rfl, hx.predict hs hd⟩
  | scan ha ht hw => exact ⟨_, _, _, _, _, rfl, hx.scan ha ht hw⟩
  | complete hn hm hs =>
    obtain rfl : d = r.rhs.length := Nat.le_antisymm hx.dot_le (List.getElem?_eq_none_iff.1 hn)
    exact ⟨_, _, _, _, _, rfl, (h.reached_of_mem hm).complete hx hs⟩

/-- Nothing more follows from an item on a later chart unless parents came where it starts. -/
theorem Follows.of_later {c' : Chart Item} {y : Item} (h : Follows p w c' r d i j cs y)
    (hold : r.rhs[d]? = none → ∀ r' d' i' cs', dotted r' d' i' i cs' ∈ c' →
      dotted r' d' i' i cs' ∈ c) : Follows p w c r d i j cs y := by
  cases h with
  | predict hs hd => exact .predict hs hd
  | scan ha ht hw => exact .scan ha ht hw
  | complete hn hm hs => exact .complete hn (hold hn _ _ _ _ hm) hs

/-- What treating an item does, at whatever position. -/
theorem Progress.inserting_treat {l : Nat} (h : Progress p w l queue c) (hx : dotted r d i k cs ∈ c) :
    Inserting (p.treat w k (dotted r d i k cs)) c ((c.newOf (p.offers w c r d i k cs)).filter (stopsAt k))
      (c.attempts (p.offers w c r d i k cs)) (c.putAll (p.offers w c r d i k cs)) := by
  obtain ⟨hik, hk⟩ := over_dotted.bounds h.filed hx
  exact treat_inserting h.filed hik hk (Nat.le_of_eq h.length.symm) h.all_dotted.formed

theorem Progress.treat {l : Nat} (h : Progress p w l queue c) (hx : dotted r d i k cs ∈ c) :
    Yields (p.treat w k (dotted r d i k cs)) c ((c.newOf (p.offers w c r d i k cs)).filter (stopsAt k))
      (c.putAll (p.offers w c r d i k cs)) := (h.inserting_treat hx).yields

theorem Progress.offers_over {l : Nat} (h : Progress p w l queue c) (hx : dotted r d i k cs ∈ c) {y : Item}
    (hy : y ∈ p.offers w c r d i k cs) :
    y.plain = true ∧ ∃ i' j', Over y i' j' ∧ i' ≤ j' ∧ j' ≤ c.length := by
  obtain ⟨hik, hk⟩ := over_dotted.bounds h.filed hx
  have hfollows := (mem_offers h.filed h.all_dotted.formed).1 hy
  have hplain := hfollows.plain h.all_dotted (h.reached_of_mem hx).plain
  obtain ⟨r', d', i', j', cs', rfl, hij', hj', -⟩ := hfollows.exists_dotted h.filed hik hk (Nat.le_of_eq h.length.symm)
  exact ⟨hplain, i', j', over_dotted, hij', hj'⟩

section Treated

variable (h : Progress p w k queue c) (hx : dotted r d i k cs ∈ c)
include h hx

theorem Progress.mem_treated {y : Item} :
    y ∈ c.putAll (p.offers w c r d i k cs) ↔ y ∈ c ∨ Follows p w c r d i k cs y := by
  obtain ⟨hik, hk⟩ := over_dotted.bounds h.filed hx
  exact Earley.mem_treated h.filed hik hk (Nat.le_of_eq h.length.symm) h.all_dotted (h.reached_of_mem hx).plain

/-- What stopped before the position stays as it was. -/
theorem Progress.rowTo_treated (hj : j < k) : (c.putAll (p.offers w c r d i k cs)).rowTo j = c.rowTo j := by
  refine h.filed.rowTo_putAll_of_ne fun y hy q hq => ?_
  have hfollows := (mem_offers h.filed h.all_dotted.formed).1 hy
  obtain ⟨r', d', i', j', cs', rfl, -⟩ := h.follows (h.reached_of_mem hx) hfollows
  have := hfollows.stop_bounds
  have := (over_dotted.place_eq hq).2
  omega

variable {r' : Rule} {d' i' j' : Nat} {cs' : List Item}

/-- A complete item is not empty, so its parents, where it starts, are as they were. -/
theorem Progress.follows_before (hne : p.grammar.hasEmptyRule = false) (hr : Reached p w r' d' i' j' cs') (hj : j' ≤ k)
    {y : Item} (hy : Follows p w (c.putAll (p.offers w c r d i k cs)) r' d' i' j' cs' y) :
    Follows p w c r' d' i' j' cs' y := by
  apply hy.of_later
  intro hn _ _ _ _ hm
  have hlt := hr.lt_of_complete hne hn
  refine ((h.mem_treated hx).1 hm).resolve_right fun hfollows => ?_
  have := hfollows.stop_bounds
  omega

end Treated

/-- What was settled stays so, the treated item is settled, and what is new at the position is queued. -/
theorem Progress.settled_treated (hne : p.grammar.hasEmptyRule = false) {rest : List Item}
    (h : Progress p w k (dotted r d i k cs :: rest) c) {r' : Rule} {d' i' j' : Nat} {cs' : List Item}
    (hy : dotted r' d' i' j' cs' ∈ c.putAll (p.offers w c r d i k cs)) (hj : j' ≤ k) :
    dotted r' d' i' j' cs' ∈ rest ++ (c.newOf (p.offers w c r d i k cs)).filter (stopsAt k) ∨
      Settled p w (c.putAll (p.offers w c r d i k cs)) r' d' i' j' cs' := by
  have hx := (h.queued _ (List.mem_cons_self ..)).1
  rcases h.filed.mem_putAll.1 hy with hyc | hnew
  · have hr := h.reached_of_mem hyc
    rcases h.settled _ _ _ _ _ hyc hj with hq | hs
    · rcases List.mem_cons.1 hq with he | hq
      · obtain ⟨rfl, rfl, rfl, rfl, rfl⟩ := dotted_inj he
        exact .inr fun y hy => (h.mem_treated hx).2 (.inr (h.follows_before hx hne hr hj hy))
      · exact .inl (List.mem_append_left _ hq)
    · exact .inr fun y hy => (h.mem_treated hx).2 (.inl (hs y (h.follows_before hx hne hr hj hy)))
  · have := ((mem_offers h.filed h.all_dotted.formed).1 (Chart.newOf_subset hnew)).stop_bounds
    exact .inl (List.mem_append_right _ (List.mem_filter.2 ⟨hnew, (over_dotted.stopsAt _).2 (by omega)⟩))

/-- Treating the first item of the queue keeps the invariant. -/
theorem Progress.treated (hne : p.grammar.hasEmptyRule = false) {rest : List Item}
    (h : Progress p w k (dotted r d i k cs :: rest) c) :
    Progress p w k (rest ++ (c.newOf (p.offers w c r d i k cs)).filter (stopsAt k))
      (c.putAll (p.offers w c r d i k cs)) := by
  have hx := (h.queued _ (List.mem_cons_self ..)).1
  refine ⟨h.filed.putAll _, ?_, (h.mem_treated hx).2 (.inl h.started), fun y hy => ?_, fun r' d' i' j' cs' hy => ?_,
    fun y hy => ?_, fun r' d' i' j' cs' hy hj => h.settled_treated hne hy hj⟩
  · rw [Chart.length_putAll, h.length]
  · rcases (h.mem_treated hx).1 hy with hy | hy
    · exact h.reached y hy
    · exact h.follows (h.reached_of_mem hx) hy
  · rcases (h.mem_treated hx).1 hy with hy | hy
    · exact h.upto _ _ _ _ _ hy
    · exact hy.stop_bounds.2
  · rcases List.mem_append.1 hy with hy | hy
    · obtain ⟨hc, hk⟩ := h.queued y (List.mem_cons_of_mem _ hy)
      exact ⟨(h.mem_treated hx).2 (.inl hc), hk⟩
    · obtain ⟨hy, hk⟩ := List.mem_filter.1 hy
      exact ⟨h.filed.mem_putAll.2 (.inr hy), hk⟩

/-- A step of the loop: the first item of the queue is treated. -/
theorem Progress.step (hne : p.grammar.hasEmptyRule = false) {x : Item} {rest : List Item}
    (h : Progress p w k (x :: rest) c) :
    ∃ c' fresh, Yields (p.treat w k x) c fresh c' ∧ Progress p w k (rest ++ fresh) c' ∧
      (c'.rowTo k).elems.length = (c.rowTo k).elems.length + fresh.length ∧ ∀ j < k, c'.rowTo j = c.rowTo j := by
  obtain ⟨hx, hxk⟩ := h.queued x (List.mem_cons_self ..)
  obtain ⟨r, d, i, j, cs, rfl, -⟩ := h.reached x hx
  obtain rfl := (over_dotted.stopsAt _).1 hxk
  refine ⟨_, _, h.treat hx, h.treated hne, ?_, fun l hl => h.rowTo_treated hx hl⟩
  rw [(h.filed.rowTo_putAll_perm _ j).length_eq, List.length_append]

/-- A list with all items that can be reached up to `k` there. -/
def Bounds (p : Earley) (w : List String) (k : Nat) (all : List Item) : Prop :=
  ∀ r d i cs, Reached p w r d i k cs → dotted r d i k cs ∈ all

theorem Progress.row_le (h : Progress p w k queue c) {all : List Item} (hall : Bounds p w k all) :
    (c.rowTo k).elems.length ≤ all.length := by
  apply (h.filed.nodup_to k).length_le_of_subset
  intro x hx
  obtain ⟨r, d, i, j, cs, rfl, hr⟩ := h.reached x ⟨k, hx⟩
  obtain ⟨-, rfl⟩ := (over_dotted.mem_rowTo h.filed k).1 hx
  exact hall _ _ _ _ hr

/-- Each step takes one item up and queues those that it adds to the row, which has room for `all` at most. -/
theorem Progress.exists_drains (hne : p.grammar.hasEmptyRule = false) {all : List Item} (hall : Bounds p w k all)
    (room : Nat) (h : Progress p w k queue c)
    (hroom : queue.length + all.length ≤ room + (c.rowTo k).elems.length) : ∃ n c', Drains p w k queue c n c' := by
  induction room generalizing queue c with
  | zero =>
    have := h.row_le hall
    obtain rfl : queue = [] := List.eq_nil_of_length_eq_zero (by omega)
    exact ⟨0, c, .done c⟩
  | succ room ih =>
    cases queue with
    | nil => exact ⟨0, c, .done c⟩
    | cons x rest =>
      obtain ⟨c', fresh, hx, h', hlen, -⟩ := h.step hne
      obtain ⟨n, c'', hd⟩ := ih h' (by simp only [List.length_append, List.length_cons] at hroom ⊢; omega)
      exact ⟨n + 1, c'', .step hx hd⟩

/-- A loop that comes to its end on some fuel has run its course. -/
theorem Progress.drains_of_run (hne : p.grammar.hasEmptyRule = false) {fuel : Nat} {s s' : Logged Item}
    (h : Progress p w k queue s.chart) (hrun : (p.drain w k fuel queue).run.run s = (.ok (), s')) :
    ∃ n, n ≤ fuel ∧ Drains p w k queue s.chart n s'.chart := by
  refine (Earley.drains_of_run (Progress p w k) (fun h => ?_) h hrun nofun).2
  obtain ⟨c', fresh, hx, h', -⟩ := h.step hne
  exact ⟨c', fresh, hx, h'⟩

/-- The loop keeps what stops before `k`, and takes up each item of the row once. -/
theorem Drains.progress (hne : p.grammar.hasEmptyRule = false) {n : Nat} {c' : Chart Item}
    (hd : Drains p w k queue c n c') (h : Progress p w k queue c) :
    Progress p w k [] c' ∧ n + (c.rowTo k).elems.length = queue.length + (c'.rowTo k).elems.length ∧
      ∀ j < k, c'.rowTo j = c.rowTo j := by
  obtain ⟨⟨hdone, hrows⟩, hsteps⟩ := hd.keeps
    (fun queue c' => Progress p w k queue c' ∧ ∀ j < k, c'.rowTo j = c.rowTo j)
    (fun c => (c.rowTo k).elems.length) (fun ⟨h, hrows⟩ => by
      obtain ⟨c', fresh, hx, h', hlen, hrows'⟩ := h.step hne
      exact ⟨c', fresh, hx, ⟨h', fun j hj => (hrows' j hj).trans (hrows j hj)⟩, hlen⟩) ⟨h, fun _ _ => rfl⟩
  exact ⟨hdone, hsteps, hrows⟩

end ParseChart.Earley
