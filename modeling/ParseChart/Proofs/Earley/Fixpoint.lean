import Mathlib.Data.List.Pairwise
import Mathlib.Order.Bounds.Basic
import ParseChart.Proofs.Chart.Permuted
import ParseChart.Proofs.Earley.Contents
/-!
# A closure as a least set

A closure may be computed on any chart of dotted rules, not only on one that a parse has made. `Closing`
is the invariant of its loop there. If no complete item is empty at the position, the items that are
completed find their parents in rows that the loop only reads, so in the end the items that stop at the
position are the least set of those that were there before, closed under prediction and completion.
-/

namespace ParseChart

open ChartItem

/-! ## Equal dotted rules -/

theorem Item.sameAll_concat (xs ys : List Item) (x y : Item) :
    sameAll (xs ++ [x]) (ys ++ [y]) = (sameAll xs ys && same x y) := by
  induction xs generalizing ys with
  | nil =>
    cases ys with
    | nil => simp [sameAll]
    | cons z ys => cases ys <;> simp [sameAll]
  | cons z xs ih =>
    cases ys with
    | nil => cases xs <;> simp [sameAll]
    | cons u ys => simp [sameAll, ih, Bool.and_assoc]

theorem dotted_beq {r r' : Rule} {d d' i i' j j' : Nat} {cs cs' : List Item} :
    (dotted r d i j cs == dotted r' d' i' j' cs') = true ↔
      r = r' ∧ d = d' ∧ i = i' ∧ j = j' ∧ Item.sameAll cs cs' = true := by
  have hspan : (Span.between i j == Span.between i' j') = true ↔ i = i' ∧ j = j' := by
    constructor
    · intro h
      simpa only [Span.between, Span.mk.injEq, Value.int.injEq, Int.natCast_inj] using Span.eq_of_beq rfl rfl h
    · rintro ⟨rfl, rfl⟩
      exact BEq.rfl
  rw [Item.beq_eq_same]
  simp only [dotted, Item.same, Bool.and_eq_true, beq_iff_eq, hspan, Int.natCast_inj, and_assoc]

/-- An equal of a dotted rule is one as well; how its positions are written and what its children are may differ. -/
theorem earley_of_beq {r : Rule} {d i j : Nat} {cs : List Item} {x : Item} (h : (dotted r d i j cs == x) = true) :
    ∃ s ds, x = .earley r d s ds ∧ (Value.int i == s.start) = true := by
  have hstart := (Item.ends_beq h).1
  rw [Item.beq_eq_same] at h
  cases x with
  | earley r' d' s ds =>
    simp only [dotted, Item.same, Bool.and_eq_true, beq_iff_eq] at h
    obtain ⟨⟨⟨rfl, rfl⟩, -⟩, -⟩ := h
    exact ⟨s, ds, rfl, hstart⟩
  | _ => cases h

namespace Earley

open ChartM

variable {p : Earley} {w : List String} {c c₀ : Chart Item} {k d i j n fuel : Nat} {r : Rule} {cs : List Item}
  {x y : Item} {queue rest : List Item} {S : Set Item}

/-- Equal dotted rules between whole positions have one id. -/
theorem twin_dotted {r' : Rule} {d' i' j' : Nat} {cs' : List Item}
    (h : (dotted r d i j cs == dotted r' d' i' j' cs') = true) : Twin (dotted r d i j cs) (dotted r' d' i' j' cs') := by
  obtain ⟨rfl, rfl, rfl, rfl, -⟩ := dotted_beq.1 h
  exact ⟨h, BEq.rfl⟩

/-- So a chart of them holds no two that are equal. -/
theorem Formed.eq_of_beq (h : Formed c) (hf : c.Filed) (hd : c.Distinct) (hx : x ∈ c) (hy : y ∈ c)
    (he : (x == y) = true) : x = y := by
  obtain ⟨r, d, i, j, cs, rfl⟩ := h x hx
  obtain ⟨r', d', i', j', cs', rfl⟩ := h y hy
  have htwin := twin_dotted he
  obtain ⟨-, -, -, rfl, -⟩ := dotted_beq.1 he
  have hsymm : Std.Symm fun x y : Item => ¬ Twin x y := ⟨fun _ _ hno h => hno h.symm⟩
  by_contra hne
  exact (hf.pairwise_rowTo hd j).forall ((over_dotted.mem_rowTo hf j).2 ⟨hx, rfl⟩)
    ((over_dotted.mem_rowTo hf j).2 ⟨hy, rfl⟩) hne htwin

theorem Formed.of_row (h : Formed c) (hf : c.Filed) (hx : x ∈ (c.rowTo k).elems) :
    ∃ r d i cs, x = dotted r d i k cs ∧ dotted r d i k cs ∈ c := by
  obtain ⟨r, d, i, j, cs, rfl⟩ := h x ⟨k, hx⟩
  obtain ⟨hxc, rfl⟩ := (over_dotted.mem_rowTo hf k).1 hx
  exact ⟨r, d, i, cs, rfl, hxc⟩

/-! ## Closed sets -/

theorem nextSymbol_dotted (r : Rule) (d i j : Nat) (cs : List Item) : (dotted r d i j cs).nextSymbol = .ok r.rhs[d]? :=
  symbolAt_nat r d

theorem isComplete?_dotted : (dotted r d i j cs).isComplete? = some true ↔ r.rhs[d]? = none := by
  simp [dotted, Item.isComplete?]

/-- The items that stop at `i`, if those that stop at `k` are `S`. -/
def stopping (c : Chart Item) (k : Nat) (S : Set Item) (i : Nat) : Set Item :=
  if i = k then S else {x | x ∈ (c.rowTo i).elems}

/-- As the items that stop at `k`, the set lacks none that prediction or completion brings about there. Equal items are
in it together. -/
structure ClosedAt (p : Earley) (c : Chart Item) (k : Nat) (S : Set Item) : Prop where
  alike : ∀ x ∈ S, ∀ y, (x == y) = true → y ∈ S
  predict : ∀ x ∈ S, ∀ a, x.nextSymbol = .ok (some a) → ∀ r ∈ p.grammar.rulesFor a, predicted k r ∈ S
  complete : ∀ x ∈ S, x.isComplete? = some true → ∀ r (i : Nat), x.rule? = some r → x.start? = some (.int i) →
    ∀ y ∈ stopping c k S i, y.nextSymbol = .ok (some r.lhs) → ∀ z, y.advance? x (.int k) = some z → z ∈ S

/-- The item waits for a terminal, which is the token at `k`, and `y` is its advance over it. -/
def Scans (p : Earley) (w : List String) (k : Nat) (x y : Item) : Prop :=
  ∃ a, w[k]? = some a ∧ p.grammar.isTerminal a = true ∧ x.nextSymbol = .ok (some a) ∧
    x.advance? (.word a) (.int (k + 1)) = some y

theorem scans_dotted : Scans p w k (dotted r d i k cs) y ↔ ∃ a, w[k]? = some a ∧ p.grammar.isTerminal a = true ∧
    r.rhs[d]? = some a ∧ y = dotted r (d + 1) i (k + 1) (cs ++ [.word a]) := by
  have hadvance : ∀ a, (dotted r d i k cs).advance? (.word a) (.int (k + 1)) =
      some (dotted r (d + 1) i (k + 1) (cs ++ [.word a])) := fun _ => rfl
  unfold Scans
  simp only [nextSymbol_dotted, hadvance, Except.ok.injEq, Option.some.injEq, eq_comm]

/-- What follows from an item of the set and stops at the position is in the set. -/
theorem ClosedAt.mem_of_follows (hS : ClosedAt p c₀ k S) (hx : dotted r d i k cs ∈ S)
    (hy : Follows p w c r d i k cs y) (hstop : stopsAt k y = true) (hf : c.Filed)
    (hrow : r.rhs[d]? = none → i ≠ k ∧ c.rowTo i = c₀.rowTo i) : y ∈ S := by
  cases hy with
  | predict hs hd =>
    exact hS.predict _ hx _ ((nextSymbol_dotted r d i k cs).trans (congrArg _ hd)) _ (Grammar.mem_rulesFor.2 ⟨hs, rfl⟩)
  | scan =>
    have := (over_dotted.stopsAt k).1 hstop
    omega
  | @complete r' d' i' cs' hn hm hsym =>
    obtain ⟨hik, hi⟩ := hrow hn
    have hparent : dotted r' d' i' i cs' ∈ stopping c₀ k S i := by
      rw [stopping, if_neg hik, ← hi]
      exact (over_dotted.mem_rowTo hf i).2 ⟨hm, rfl⟩
    exact hS.complete _ hx (isComplete?_dotted.2 hn) r i rfl rfl _ hparent
      ((nextSymbol_dotted r' d' i' i cs').trans (congrArg _ hsym)) _ rfl

/-! ## The loop -/

/-- What follows from the item is on the chart, or an equal is. -/
def Answered (p : Earley) (w : List String) (c : Chart Item) (r : Rule) (d i k : Nat) (cs : List Item) : Prop :=
  ∀ y, Follows p w c r d i k cs y → ∃ u, u ∈ c ∧ Twin u y

/-- A closure at `k` that began on the chart `c₀` has come to the chart `c` with a queue left. -/
structure Closing (p : Earley) (w : List String) (k : Nat) (c₀ : Chart Item) (queue : List Item) (c : Chart Item) : Prop where
  filed : c.Filed
  distinct : c.Distinct
  formed : Formed c
  grown : c₀.GrowsTo c
  rows : ∀ j, j ≠ k → j ≠ k + 1 → c.rowTo j = c₀.rowTo j
  /-- No complete item is empty at the position. -/
  filled : ∀ r d cs, dotted r d k k cs ∈ c → r.rhs[d]? ≠ none
  queued : ∀ x ∈ queue, x ∈ (c.rowTo k).elems
  answered : ∀ r d i cs, dotted r d i k cs ∈ c → dotted r d i k cs ∈ queue ∨ Answered p w c r d i k cs
  least : ∀ S, (∀ x ∈ (c₀.rowTo k).elems, x ∈ S) → ClosedAt p c₀ k S → ∀ x ∈ (c.rowTo k).elems, x ∈ S
  scanned : ∀ y ∈ (c.rowTo (k + 1)).elems, y ∈ (c₀.rowTo (k + 1)).elems ∨ ∃ x ∈ (c.rowTo k).elems, Scans p w k x y

theorem closing_start (hf : c.Filed) (hd : c.Distinct) (hformed : Formed c)
    (hfilled : ∀ r d cs, dotted r d k k cs ∈ c → r.rhs[d]? ≠ none) : Closing p w k c (c.rowTo k).elems c where
  filed := hf
  distinct := hd
  formed := hformed
  grown := Chart.growsTo_refl c
  rows _ _ _ := rfl
  filled := hfilled
  queued _ hx := hx
  answered _ _ _ _ hx := .inl ((over_dotted.mem_rowTo hf k).2 ⟨hx, rfl⟩)
  least _ hS _ x hx := hS x hx
  scanned _ hy := .inl hy

/-- So a complete item has its parents in a row that the closure only reads. -/
theorem Closing.parents (h : Closing p w k c₀ queue c) (hx : dotted r d i k cs ∈ c) (hn : r.rhs[d]? = none) :
    i < k ∧ c.rowTo i = c₀.rowTo i := by
  have hik := (over_dotted.bounds h.filed hx).1
  have hne : i ≠ k := by
    rintro rfl
    exact h.filled r d cs hx hn
  exact ⟨by omega, h.rows i hne (by omega)⟩

section Treated

variable (hw : w.length ≤ c₀.length) (h : Closing p w k c₀ queue c) (hx : dotted r d i k cs ∈ c)
include hw h hx

theorem Closing.treat_yields : Yields (p.treat w k (dotted r d i k cs)) c
    ((c.newOf (p.offers w c r d i k cs)).filter (stopsAt k)) (c.putAll (p.offers w c r d i k cs)) := by
  obtain ⟨hik, hk⟩ := over_dotted.bounds h.filed hx
  exact Earley.treat_yields h.filed hik hk (h.grown.length ▸ hw) h.formed

/-- What is offered follows from the item and has a place, at the position or one later. -/
theorem Closing.of_offered (hy : y ∈ p.offers w c r d i k cs) : Follows p w c r d i k cs y ∧
    ∃ r' d' i' j' cs', y = dotted r' d' i' j' cs' ∧ i' ≤ j' ∧ j' ≤ c.length ∧ (j' = k ∨ j' = k + 1) := by
  obtain ⟨hik, hk⟩ := over_dotted.bounds h.filed hx
  have hfollows := (mem_offers h.filed h.formed).1 hy
  obtain ⟨r', d', i', j', cs', rfl, hij, hj, hor⟩ := hfollows.exists_dotted h.filed hik hk (h.grown.length ▸ hw)
  exact ⟨hfollows, r', d', i', j', cs', rfl, hij, hj, hor.imp_right And.left⟩

theorem Closing.mem_treated (hy : y ∈ c.putAll (p.offers w c r d i k cs)) : y ∈ c ∨
    y ∈ c.newOf (p.offers w c r d i k cs) ∧ Follows p w c r d i k cs y :=
  (h.filed.mem_putAll.1 hy).imp_right fun hnew => ⟨hnew, (h.of_offered hw hx (Chart.newOf_subset hnew)).1⟩

theorem Closing.rowTo_treated {l : Nat} (hl : l ≠ k) (hl' : l ≠ k + 1) :
    (c.putAll (p.offers w c r d i k cs)).rowTo l = c.rowTo l := by
  refine h.filed.rowTo_putAll_of_ne fun y hy q hq => ?_
  obtain ⟨-, r', d', i', j', cs', rfl, -, -, hj⟩ := h.of_offered hw hx hy
  have := (over_dotted.place_eq hq).2
  omega

/-- A new item at the position is predicted or an advance, and neither is empty and complete. -/
theorem Closing.filled_treated (hne : p.grammar.hasEmptyRule = false) {r' : Rule} {d' : Nat} {cs' : List Item}
    (hy : dotted r' d' k k cs' ∈ c.putAll (p.offers w c r d i k cs)) : r'.rhs[d']? ≠ none := by
  rcases h.mem_treated hw hx hy with hy | ⟨-, hfollows⟩
  · exact h.filled r' d' cs' hy
  · generalize he : dotted r' d' k k cs' = y at hfollows
    cases hfollows with
    | predict hs =>
      obtain ⟨rfl, rfl, -⟩ := dotted_inj he
      intro hn
      exact Grammar.hasEmptyRule_eq_false.1 hne r' hs (List.length_eq_zero_iff.1 (by simpa using hn))
    | scan =>
      obtain ⟨-, -, -, hk, -⟩ := dotted_inj he
      omega
    | complete hn hm =>
      obtain ⟨-, -, rfl, -, -⟩ := dotted_inj he
      have := (over_dotted.bounds h.filed hm).1
      have := (h.parents hx hn).1
      omega

/-- Nothing more follows from an item that was there. -/
theorem Closing.follows_before {r' : Rule} {d' i' : Nat} {cs' : List Item} (hz : dotted r' d' i' k cs' ∈ c)
    (hy : Follows p w (c.putAll (p.offers w c r d i k cs)) r' d' i' k cs' y) : Follows p w c r' d' i' k cs' y := by
  apply hy.of_later
  intro hn r₁ d₁ i₁ cs₁ hm
  obtain ⟨hlt, -⟩ := h.parents hz hn
  have hrow := h.rowTo_treated hw hx (Nat.ne_of_lt hlt) (by omega)
  have hmem := (over_dotted.mem_rowTo (h.filed.putAll _) i').2 ⟨hm, rfl⟩
  rw [hrow] at hmem
  exact ((over_dotted.mem_rowTo h.filed i').1 hmem).1

theorem Closing.answered_self : Answered p w (c.putAll (p.offers w c r d i k cs)) r d i k cs := by
  intro y hy
  have hoffered := (mem_offers h.filed h.formed).2 (h.follows_before hw hx hx hy)
  obtain ⟨-, r', d', i', j', cs', rfl, hij, hj, -⟩ := h.of_offered hw hx hoffered
  obtain ⟨id, hp⟩ := over_dotted.place c hij hj
  exact h.filed.exists_twin_of_offered hoffered hp

/-- What is new at the position is in each closed set. -/
theorem Closing.mem_closed (hy : y ∈ c.newOf (p.offers w c r d i k cs)) (hstop : stopsAt k y = true)
    (hS : ∀ x ∈ (c₀.rowTo k).elems, x ∈ S) (hclosed : ClosedAt p c₀ k S) : y ∈ S := by
  obtain ⟨hfollows, -⟩ := h.of_offered hw hx (Chart.newOf_subset hy)
  have hxS := h.least S hS hclosed _ ((over_dotted.mem_rowTo h.filed k).2 ⟨hx, rfl⟩)
  apply hclosed.mem_of_follows hxS hfollows hstop h.filed
  intro hn
  obtain ⟨hlt, hrow⟩ := h.parents hx hn
  exact ⟨Nat.ne_of_lt hlt, hrow⟩

/-- What is new behind the position is scanned. -/
theorem Closing.scans_of_new (hy : y ∈ c.newOf (p.offers w c r d i k cs)) (hstop : stopsAt (k + 1) y = true) :
    Scans p w k (dotted r d i k cs) y := by
  obtain ⟨hfollows, -⟩ := h.of_offered hw hx (Chart.newOf_subset hy)
  cases hfollows with
  | scan ha ht hwk => exact scans_dotted.2 ⟨_, hwk, ht, ha, rfl⟩
  | predict | complete =>
    have := (over_dotted.stopsAt (k + 1)).1 hstop
    omega

/-- What follows from an item that was treated before is still there. -/
theorem Closing.answered_before {r' : Rule} {d' i' : Nat} {cs' : List Item} (hz : dotted r' d' i' k cs' ∈ c)
    (hanswered : Answered p w c r' d' i' k cs') :
    Answered p w (c.putAll (p.offers w c r d i k cs)) r' d' i' k cs' := by
  intro y hfollows
  obtain ⟨u, hu, htwin⟩ := hanswered y (h.follows_before hw hx hz hfollows)
  exact ⟨u, h.filed.mem_putAll.2 (.inl hu), htwin⟩

end Treated

section FirstTreated

variable (hw : w.length ≤ c₀.length) (h : Closing p w k c₀ (dotted r d i k cs :: rest) c)
include hw h

/-- Of the items at the position, the one that is treated leaves the queue and the new ones enter it. -/
theorem Closing.queued_or_answered {r' : Rule} {d' i' : Nat} {cs' : List Item} (hx : dotted r d i k cs ∈ c)
    (hy : dotted r' d' i' k cs' ∈ c.putAll (p.offers w c r d i k cs)) :
    dotted r' d' i' k cs' ∈ rest ++ (c.newOf (p.offers w c r d i k cs)).filter (stopsAt k) ∨
      Answered p w (c.putAll (p.offers w c r d i k cs)) r' d' i' k cs' := by
  rcases h.mem_treated hw hx hy with hyc | ⟨hnew, -⟩
  · rcases h.answered r' d' i' cs' hyc with hq | hanswered
    · rcases List.mem_cons.1 hq with he | hq
      · obtain ⟨rfl, rfl, rfl, -, rfl⟩ := dotted_inj he
        exact .inr (h.answered_self hw hx)
      · exact .inl (List.mem_append_left _ hq)
    · exact .inr (h.answered_before hw hx hyc hanswered)
  · exact .inl (List.mem_append_right _ (List.mem_filter.2 ⟨hnew, (over_dotted.stopsAt k).2 rfl⟩))

/-- Treating the first item of the queue keeps the invariant. -/
theorem Closing.treated (hne : p.grammar.hasEmptyRule = false) :
    Closing p w k c₀ (rest ++ (c.newOf (p.offers w c r d i k cs)).filter (stopsAt k))
      (c.putAll (p.offers w c r d i k cs)) := by
  have hfirst := h.queued _ (List.mem_cons_self ..)
  have hx := ((over_dotted.mem_rowTo h.filed k).1 hfirst).1
  exact {
    filed := h.filed.putAll _
    distinct := h.filed.distinct_putAll h.distinct _
    formed := fun y hy => by
      rcases h.mem_treated hw hx hy with hy | ⟨hnew, -⟩
      · exact h.formed y hy
      · obtain ⟨-, r', d', i', j', cs', rfl, -⟩ := h.of_offered hw hx (Chart.newOf_subset hnew)
        exact ⟨r', d', i', j', cs', rfl⟩
    grown := h.grown.trans (h.filed.growsTo_putAll _)
    rows := fun l hl hl' => (h.rowTo_treated hw hx hl hl').trans (h.rows l hl hl')
    filled := fun r' d' cs' hy => h.filled_treated hw hx hne hy
    queued := fun y hy => by
      rcases List.mem_append.1 hy with hy | hy
      · exact h.filed.mem_rowTo_putAll.2 (.inl (h.queued y (List.mem_cons_of_mem _ hy)))
      · exact h.filed.mem_rowTo_putAll.2 (.inr (List.mem_filter.1 hy))
    answered := fun r' d' i' cs' hy => h.queued_or_answered hw hx hy
    least := fun S hS hclosed y hy => by
      rcases h.filed.mem_rowTo_putAll.1 hy with hy | ⟨hnew, hstop⟩
      · exact h.least S hS hclosed y hy
      · exact h.mem_closed hw hx hnew hstop hS hclosed
    scanned := fun y hy => by
      have hold : ∀ {z}, z ∈ (c.rowTo k).elems → z ∈ ((c.putAll (p.offers w c r d i k cs)).rowTo k).elems :=
        fun hz => h.filed.mem_rowTo_putAll.2 (.inl hz)
      rcases h.filed.mem_rowTo_putAll.1 hy with hy | ⟨hnew, hstop⟩
      · exact (h.scanned y hy).imp_right fun ⟨z, hz, hscans⟩ => ⟨z, hold hz, hscans⟩
      · exact .inr ⟨_, hold hfirst, h.scans_of_new hw hx hnew hstop⟩ }

end FirstTreated

/-- A step of the loop: the first item of the queue is treated. -/
theorem Closing.step (hne : p.grammar.hasEmptyRule = false) (hw : w.length ≤ c₀.length)
    (h : Closing p w k c₀ (x :: rest) c) :
    ∃ c' fresh, Yields (p.treat w k x) c fresh c' ∧ Closing p w k c₀ (rest ++ fresh) c' ∧
      (c'.rowTo k).elems.length = (c.rowTo k).elems.length + fresh.length := by
  obtain ⟨r, d, i, cs, rfl, hx⟩ := h.formed.of_row h.filed (h.queued x (List.mem_cons_self ..))
  refine ⟨_, _, h.treat_yields hw hx, h.treated hw hne, ?_⟩
  rw [(h.filed.rowTo_putAll_perm _ k).length_eq, List.length_append]

/-- The whole loop ends without a fault, if it ends, after a step for each item of the finished row. -/
theorem Closing.drains_of_run (hne : p.grammar.hasEmptyRule = false) (hw : w.length ≤ c₀.length) {s s' : Logged Item}
    {answer : Except Halt Unit} (h : Closing p w k c₀ queue s.chart)
    (hrun : (p.drain w k fuel queue).run.run s = (answer, s')) (hends : answer ≠ .error .unfinished) :
    answer = .ok () ∧ Closing p w k c₀ [] s'.chart ∧
      (s'.chart.rowTo k).elems.length + queue.length ≤ fuel + (s.chart.rowTo k).elems.length := by
  obtain ⟨hanswer, m, hm, hd⟩ := Earley.drains_of_run (Closing p w k c₀) (fun h => by
    obtain ⟨c', fresh, hx, h', -⟩ := h.step hne hw
    exact ⟨c', fresh, hx, h'⟩) h hrun hends
  obtain ⟨hdone, hsteps⟩ := hd.keeps (Closing p w k c₀) (fun c => (c.rowTo k).elems.length) (fun h => h.step hne hw) h
  exact ⟨hanswer, hdone, by omega⟩

/-! ## The finished closure -/

section Finished

variable (h : Closing p w k c₀ [] c)
include h

theorem Closing.answered_of_mem (hx : dotted r d i k cs ∈ c) : Answered p w c r d i k cs :=
  (h.answered r d i cs hx).resolve_left (by simp)

/-- What follows from an item at the position is listed there or one later, or an equal is. -/
theorem Closing.exists_row (hx : dotted r d i k cs ∈ c) {r' : Rule} {d' i' l : Nat} {cs' : List Item}
    (hy : Follows p w c r d i k cs (dotted r' d' i' l cs')) :
    ∃ u ∈ (c.rowTo l).elems, (u == dotted r' d' i' l cs') = true := by
  obtain ⟨u, hu, he, -⟩ := h.answered_of_mem hx _ hy
  obtain ⟨r'', d'', i'', l', cs'', rfl⟩ := h.formed u hu
  obtain ⟨-, -, -, rfl, -⟩ := dotted_beq.1 he
  exact ⟨_, (over_dotted.mem_rowTo h.filed l').2 ⟨hu, rfl⟩, he⟩

/-- The advance of a parent over a complete item, or over an equal of it, is listed, or an equal is. -/
theorem Closing.exists_completed (hx : dotted r d i k cs ∈ c) (hn : r.rhs[d]? = none)
    (he : (dotted r d i k cs == x) = true) {r' : Rule} {d' i' : Nat} {cs' : List Item} (hy : dotted r' d' i' i cs' ∈ c)
    (hd' : r'.rhs[d']? = some r.lhs) : ∃ u ∈ (c.rowTo k).elems, (u == dotted r' (d' + 1) i' k (cs' ++ [x])) = true := by
  obtain ⟨u, hu, heu⟩ := h.exists_row hx (.complete hn hy hd')
  refine ⟨u, hu, BEq.trans heu (dotted_beq.2 ⟨rfl, rfl, rfl, rfl, ?_⟩)⟩
  rw [Item.beq_eq_same] at he
  rw [Item.sameAll_concat, Item.sameAll_refl, he]
  rfl

/-- The items at the position, with all that are equal to them, are closed. -/
theorem Closing.closedAt : ClosedAt p c₀ k {x | ∃ y ∈ (c.rowTo k).elems, (y == x) = true} := by
  have hform : ∀ x, (∃ y ∈ (c.rowTo k).elems, (y == x) = true) → ∃ r d i s cs ds, dotted r d i k cs ∈ c ∧
      x = .earley r d s ds ∧ (Value.int i == s.start) = true ∧ (dotted r d i k cs == x) = true := by
    rintro x ⟨y, hy, he⟩
    obtain ⟨r, d, i, cs, rfl, hyc⟩ := h.formed.of_row h.filed hy
    obtain ⟨s, ds, rfl, hstart⟩ := earley_of_beq he
    exact ⟨r, d, i, s, cs, ds, hyc, rfl, hstart, he⟩
  refine ⟨fun x ⟨y, hy, he⟩ z hz => ⟨y, hy, BEq.trans he hz⟩, fun x hx a ha s hs => ?_,
    fun x hx hcomplete r' i' hr' hi' y hy hnext z hz => ?_⟩
  · obtain ⟨r, d, i, span, cs, ds, hyc, rfl, -⟩ := hform x hx
    obtain ⟨hrule, rfl⟩ := Grammar.mem_rulesFor.1 hs
    have hd : r.rhs[d]? = some s.lhs := Except.ok.inj ((symbolAt_nat r d).symm.trans ha)
    exact h.exists_row hyc (.predict hrule hd)
  · obtain ⟨r, d, i, span, cs, ds, hyc, rfl, hstart, he⟩ := hform x hx
    have hrr : r' = r := (Option.some.inj hr').symm
    rw [hrr] at hnext
    obtain ⟨start, stop⟩ := span
    obtain rfl : start = .int i' := Option.some.inj hi'
    obtain rfl : i = i' := Int.natCast_inj.1 (Value.int_inj_of_key (Value.key_eq_of_same hstart))
    have hn : r.rhs[d]? = none := by simpa [Item.isComplete?] using hcomplete
    obtain ⟨hlt, hrow⟩ := h.parents hyc hn
    rw [stopping, if_neg (Nat.ne_of_lt hlt), Set.mem_ofPred_eq, ← hrow] at hy
    obtain ⟨r', d', j, cs', rfl, hparent⟩ := h.formed.of_row h.filed hy
    have hd' : r'.rhs[d']? = some r.lhs := Except.ok.inj ((nextSymbol_dotted ..).symm.trans hnext)
    cases hz
    exact h.exists_completed hyc hn he hparent hd'

theorem Closing.isLeast : IsLeast {S | (∀ x ∈ (c₀.rowTo k).elems, x ∈ S) ∧ ClosedAt p c₀ k S}
    {x | ∃ y ∈ (c.rowTo k).elems, (y == x) = true} := by
  refine ⟨⟨fun x hx => ⟨x, (h.grown.reaching k).mem_elems hx, BEq.rfl⟩, h.closedAt⟩, ?_⟩
  rintro S ⟨hS, hclosed⟩ x ⟨y, hy, he⟩
  exact hclosed.alike y (h.least S hS hclosed y hy) x he

theorem Closing.pairwise_row : (c.rowTo k).elems.Pairwise fun x y => (x == y) = false := by
  refine (h.filed.nodup_to k).imp_of_mem fun {x y} hx hy hne => ?_
  rw [← Bool.not_eq_true]
  exact fun he => hne (h.formed.eq_of_beq h.filed h.distinct ⟨k, hx⟩ ⟨k, hy⟩ he)

/-- Advances over the token that are equal are the same, as the items are of which they are advances. -/
theorem Closing.scans_eq_of_beq {u z : Item} (hx : x ∈ (c.rowTo k).elems) (hz : z ∈ (c.rowTo k).elems)
    (hxy : Scans p w k x y) (hzu : Scans p w k z u) (he : (u == y) = true) : u = y := by
  obtain ⟨r, d, i, cs, rfl, hxc⟩ := h.formed.of_row h.filed hx
  obtain ⟨r', d', i', cs', rfl, hzc⟩ := h.formed.of_row h.filed hz
  obtain ⟨a, ha, -, -, rfl⟩ := scans_dotted.1 hxy
  obtain ⟨a', ha', -, -, rfl⟩ := scans_dotted.1 hzu
  obtain rfl : a' = a := Option.some.inj (ha'.symm.trans ha)
  obtain ⟨rfl, hd, rfl, -, hall⟩ := dotted_beq.1 he
  rw [Item.sameAll_concat, Bool.and_eq_true] at hall
  have hzx : (dotted r' d' i' k cs' == dotted r' d i' k cs) = true :=
    dotted_beq.2 ⟨rfl, Nat.succ.inj hd, rfl, rfl, hall.1⟩
  obtain ⟨-, rfl, -, -, rfl⟩ := dotted_inj (h.formed.eq_of_beq h.filed h.distinct hzc hxc hzx)
  rfl

/-- New behind the position are the advances over the token that had no equal there. -/
theorem Closing.scanned_iff : y ∈ (c.rowTo (k + 1)).elems ∧ y ∉ (c₀.rowTo (k + 1)).elems ↔
    (∃ x ∈ (c.rowTo k).elems, Scans p w k x y) ∧ ∀ u ∈ (c₀.rowTo (k + 1)).elems, (u == y) = false := by
  constructor
  · rintro ⟨hy, hnew⟩
    refine ⟨(h.scanned y hy).resolve_left hnew, fun u hu => ?_⟩
    rw [← Bool.not_eq_true]
    intro he
    have huy := h.formed.eq_of_beq h.filed h.distinct ⟨k + 1, (h.grown.reaching _).mem_elems hu⟩ ⟨k + 1, hy⟩ he
    exact hnew (huy ▸ hu)
  · rintro ⟨⟨x, hx, hscans⟩, hmissing⟩
    obtain ⟨r, d, i, cs, rfl, hxc⟩ := h.formed.of_row h.filed hx
    obtain ⟨a, hw, ht, hd, rfl⟩ := scans_dotted.1 hscans
    obtain ⟨u, hu, he⟩ := h.exists_row hxc (.scan hd ht hw)
    have hnew : u ∉ (c₀.rowTo (k + 1)).elems := fun hold => Bool.false_ne_true ((hmissing u hold).symm.trans he)
    obtain ⟨z, hz, hscans'⟩ := (h.scanned u hu).resolve_left hnew
    have huy := h.scans_eq_of_beq hx hz hscans hscans' he
    exact ⟨huy ▸ hu, huy ▸ hnew⟩

theorem Closing.treat_again (hw : w.length ≤ c₀.length) (hx : x ∈ (c.rowTo k).elems) : Yields (p.treat w k x) c [] c := by
  obtain ⟨r, d, i, cs, rfl, hxc⟩ := h.formed.of_row h.filed hx
  have htreat := h.treat_yields hw hxc
  have hnone : c.newOf (p.offers w c r d i k cs) = [] := h.filed.newOf_eq_nil_of_twins fun y hy =>
    h.answered_of_mem hxc y ((mem_offers h.filed h.formed).1 hy)
  rwa [Chart.putAll_of_newOf_nil hnone, hnone] at htreat

end Finished

/-- Let a closure come to its end on a chart of dotted rules between whole positions, none of them complete and empty at
the position `k`. Then it has met no fault, and what was on the chart is where it was. The items that stop at `k` are,
each once, the least set of those that were there before that is closed under prediction and under completion by the rows
before. What is new at `k + 1` are the advances over the token at `k` that had no equal there, and no other row has
changed. The same closure, done again, changes nothing. -/
theorem closure_least {g : Grammar} {start : Option String} (hp : ofGrammar g start = .ok p) {source : String}
    {ops : List (Operation Item)} (hc : c = (Operation.run n source ops).chart)
    (hformed : ∀ x ∈ c, ∃ r d i j cs, x = dotted r d i j cs) (hw : w.length ≤ n) (hk : k ≤ n)
    (hfilled : ∀ x ∈ c, x.start? = some (.int k) → x.stop? = some (.int k) → x.isComplete? ≠ some true) {s s' : Logged Item}
    {answer : Except Halt Unit} (hs : s.chart = c) (hrun : (p.closure fuel w k).run.run s = (answer, s'))
    (hends : answer ≠ .error .unfinished) :
    answer = .ok () ∧ c.GrowsTo s'.chart ∧ (∀ j, j ≠ k → j ≠ k + 1 → s'.chart.rowTo j = c.rowTo j) ∧
      IsLeast {S | (∀ x ∈ (c.rowTo k).elems, x ∈ S) ∧ ClosedAt p c k S}
        {x | ∃ y ∈ (s'.chart.rowTo k).elems, (y == x) = true} ∧
      (s'.chart.rowTo k).elems.Pairwise (fun x y => (x == y) = false) ∧
      (∀ y, y ∈ (s'.chart.rowTo (k + 1)).elems ∧ y ∉ (c.rowTo (k + 1)).elems ↔
        (∃ x ∈ (s'.chart.rowTo k).elems, Scans p w k x y) ∧ ∀ u ∈ (c.rowTo (k + 1)).elems, (u == y) = false) ∧
      Yields (p.closure fuel w k) s'.chart () s'.chart := by
  obtain ⟨hne, -, rfl⟩ := ofGrammar_eq_ok.1 hp
  obtain ⟨hf, hd⟩ := Operation.filed_run n source ops
  have hlen : c.length = n := hc ▸ Operation.length_run n source ops
  rw [← hc] at hf hd
  rw [← hlen] at hw hk
  obtain ⟨t, ht, hdrain⟩ := (yields_itemsTo hk).run_bind hs fun queue => drain ⟨g, start.getD g.start⟩ w k fuel queue
  have hbegin : Closing ⟨g, start.getD g.start⟩ w k c (c.rowTo k).elems t.chart := by
    rw [ht]
    exact closing_start hf hd hformed fun r d cs hx hn => hfilled _ hx rfl rfl (isComplete?_dotted.2 hn)
  obtain ⟨hanswer, hdone, hsteps⟩ := hbegin.drains_of_run hne hw (hdrain.symm.trans hrun) hends
  rw [ht] at hsteps
  have hagain := drains_of_settled fun x hx => hdone.treat_again hw hx
  exact ⟨hanswer, hdone.grown, hdone.rows, hdone.isLeast, hdone.pairwise_row, fun y => hdone.scanned_iff,
    (yields_itemsTo (hdone.grown.length ▸ hk)).bind (hagain.yields (by omega))⟩

/-- A rule of two symbols that has begun at the first position, and a part for it. No parse makes the part alone. -/
def begun : List Item := [dotted ⟨"S", ["S", "S"]⟩ 0 0 0 [], dotted ⟨"S", ["a"]⟩ 1 0 1 [.word "a"]]

/-- The part completes the first symbol and two rules are predicted behind it, one of them for the second token. -/
theorem closure_least_begun : ∃ s s' : Logged Item, s = Operation.run 2 Chart.logName (begun.map .insert) ∧
    (closure ⟨.doubling, "S"⟩ 4 ["a", "a"] (1 : Nat)).run.run s = (.ok (), s') ∧
    (s'.chart.rowTo 1).elems.length = 4 ∧ (s'.chart.rowTo 2).elems.length = 1 ∧
    IsLeast {S | (∀ x ∈ (s.chart.rowTo 1).elems, x ∈ S) ∧ ClosedAt ⟨.doubling, "S"⟩ s.chart 1 S}
      {x | ∃ y ∈ (s'.chart.rowTo 1).elems, (y == x) = true} ∧
    Yields (closure ⟨.doubling, "S"⟩ 4 ["a", "a"] (1 : Nat)) s'.chart () s'.chart := by
  obtain ⟨s, s', hs, hrun, hfour, hone⟩ : ∃ s s' : Logged Item, s = Operation.run 2 Chart.logName (begun.map .insert) ∧
    (closure ⟨.doubling, "S"⟩ 4 ["a", "a"] (1 : Nat)).run.run s = (.ok (), s') ∧
    (s'.chart.rowTo 1).elems.length = 4 ∧ (s'.chart.rowTo 2).elems.length = 1 := ⟨_, _, rfl, rfl, rfl, rfl⟩
  have hitems : ∀ x ∈ s.chart, x ∈ begun := by
    rw [hs, Operation.run_inserts]
    exact fun x hx => Chart.mem_of_mem_putAll hx
  have hformed : ∀ x ∈ begun, ∃ r d i j cs, x = dotted r d i j cs := by
    intro x hx
    rcases List.mem_pair.1 hx with rfl | rfl
    · exact ⟨_, _, _, _, _, rfl⟩
    · exact ⟨_, _, _, _, _, rfl⟩
  have hfilled : ∀ x ∈ begun, x.start? ≠ some (.int (1 : Nat)) := by
    intro x hx
    rcases List.mem_pair.1 hx with rfl | rfl
    · exact nofun
    · exact nofun
  obtain ⟨-, -, -, hleast, -, -, hagain⟩ := closure_least (w := ["a", "a"]) ofGrammar_doubling
    (congrArg Logged.chart hs) (fun x hx => hformed x (hitems x hx)) (Nat.le_refl 2) (Nat.le_succ 1)
    (fun x hx hstart => absurd hstart (hfilled x (hitems x hx))) rfl hrun (by simp)
  exact ⟨s, s', hs, hrun, hfour, hone, hleast, hagain⟩

end Earley

end ParseChart
