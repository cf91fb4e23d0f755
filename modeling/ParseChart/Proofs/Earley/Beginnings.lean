import ParseChart.Proofs.Chart.Parses
import ParseChart.Proofs.Earley.Contents
/-!
# Parses of the beginning of an input

Up to a position the chart of a parse is that of the words before the position, in the same order: a
closure reads the word at its position only to fill the next one, and otherwise what stops no later. So
the two parses take the same steps, side by side, and all that comes later changes no earlier row.
-/

namespace ParseChart

open ChartItem

/-! ## Charts that agree -/

namespace Chart

/-- Up to `k` the same items stop at each position of the two charts, in the same order. -/
def Agree (k : Nat) (c d : Chart Item) : Prop := ∀ j ≤ k, c.rowTo j = d.rowTo j

variable {c d : Chart Item} {k : Nat}

theorem agree_empty (k n m : Nat) : Agree k (empty n) (empty m) := fun j _ => by rw [rowTo_empty, rowTo_empty]

section Agree

variable (h : Agree k c d) (hc : c.Filed) (hd : d.Filed)
include h hc hd

theorem Agree.mem_iff {x : Item} {i j : Nat} (hx : Over x i j) (hj : j ≤ k) : x ∈ c ↔ x ∈ d := by
  have hrow : x ∈ (c.rowTo j).elems ↔ x ∈ (d.rowTo j).elems := by rw [h j hj]
  simpa [hx.mem_rowTo hc, hx.mem_rowTo hd] using hrow

theorem Agree.mem_cell {x : Item} {i j i' j' : Nat} (hx : Over x i j) (hj : j' ≤ k) :
    x ∈ c.cell i' j' ↔ x ∈ d.cell i' j' := by
  rw [hx.mem_cell hc, hx.mem_cell hd]
  apply and_congr_left
  rintro ⟨-, rfl⟩
  exact h.mem_iff hc hd hx hj

variable (hcp : c.Plain) (hdp : d.Plain) (hck : k ≤ c.length) (hdk : k ≤ d.length)
include hcp hdp hck hdk

/-- An item that stops no later than `k` is filed in both charts alike. -/
theorem Agree.put {x : Item} {i j : Nat} (hx : Over x i j) (hplain : x.plain = true) (hij : i ≤ j) (hj : j ≤ k) :
    c.adds x = d.adds x ∧ Agree k (c.put x) (d.put x) := by
  obtain ⟨id, hp⟩ := hx.place c hij (by omega)
  obtain ⟨id', hp'⟩ := hx.place d hij (by omega)
  obtain rfl : id = id' := Option.some.inj ((place_eq_ok hp).1.symm.trans (place_eq_ok hp').1)
  have hadds : c.adds x = d.adds x := by
    rw [Bool.eq_iff_iff, hc.adds_iff hcp hplain hp, hd.adds_iff hdp hplain hp', h.mem_iff hc hd hx hj]
  have hjc : j < c.incoming.length := by rw [hc.incoming_length]; omega
  have hjd : j < d.incoming.length := by rw [hd.incoming_length]; omega
  refine ⟨hadds, fun l hl => ?_⟩
  rw [put_of_place hp, put_of_place hp', ← hadds]
  split
  · rw [rowTo_file hjc, rowTo_file hjd, h l hl]
  · exact h l hl

theorem Agree.putAll {xs : List Item}
    (hxs : ∀ x ∈ xs, x.plain = true ∧ ∃ i j, Over x i j ∧ i ≤ j ∧ j ≤ k) :
    c.newOf xs = d.newOf xs ∧ Agree k (c.putAll xs) (d.putAll xs) := by
  induction xs generalizing c d with
  | nil => exact ⟨rfl, h⟩
  | cons x xs ih =>
    obtain ⟨hplain, i, j, hx, hij, hj⟩ := hxs x (by simp)
    obtain ⟨hadds, hput⟩ := h.put hc hd hcp hdp hck hdk hx hplain hij hj
    obtain ⟨hnew, hall⟩ := ih hput (hc.put x) (hd.put x) (hc.plain_put hcp hplain) (hd.plain_put hdp hplain)
      (by rwa [length_put]) (by rwa [length_put]) fun y hy => hxs y (List.mem_cons_of_mem x hy)
    rw [newOf, newOf, hadds, hnew]
    exact ⟨rfl, hall⟩

end Agree

/-- Items that stop later than `k` make no difference. -/
theorem Agree.putAll_left (h : Agree k c d) (hc : c.Filed) {xs : List Item} (hxs : ∀ x ∈ xs, ∃ i j, Over x i j ∧ k < j) :
    Agree k (c.putAll xs) d := by
  intro j hj
  rw [hc.rowTo_putAll_of_ne fun x hx p hp => ?_]
  · exact h j hj
  · obtain ⟨i, l, hover, hl⟩ := hxs x hx
    have := (hover.place_eq hp).2
    omega

end Chart

namespace Earley

open ChartM Chart

variable {g : Grammar} {start : Option String} {p : Earley} {w : List String} {c c' d : Chart Item}
  {k m len n q fuel : Nat} {queue : List Item}

/-! ## Two parses side by side -/

/-- At the end of the beginning, and only there, the words that follow have a say: the word after it is scanned. -/
theorem offers_take (h : Agree k c d) (hq : q ≤ k) {r : Rule} {dot i : Nat} (hi : i ≤ q) (cs : List Item) :
    p.offers w c r dot i q cs = p.offers (w.take k) d r dot i q cs ∨
      q = k ∧ p.offers (w.take k) d r dot i q cs = [] ∧
        ∃ a, p.offers w c r dot i q cs = [dotted r (dot + 1) i (k + 1) (cs ++ [.word a])] := by
  unfold offers
  cases r.rhs[dot]? with
  | none =>
    left
    simp only
    rw [h i (by omega)]
  | some a =>
    simp only
    cases p.grammar.isTerminal a with
    | false => exact .inl rfl
    | true =>
      rcases Nat.lt_or_eq_of_le hq with hq | rfl
      · left
        rw [List.getElem?_take_of_lt hq]
      · by_cases hw : w[q]? = some a
        · exact .inr ⟨rfl, by simp, a, by simp [hw]⟩
        · exact .inl (by simp [hw])

theorem Progress.treat_agree (hw : Progress p w q queue c) (hu : Progress p (w.take k) q queue d) (hk : k ≤ w.length)
    (h : Agree k c d) {x : Item} (hx : x ∈ queue) :
    ∃ fresh c' d', Yields (p.treat w q x) c fresh c' ∧ Yields (p.treat (w.take k) q x) d fresh d' ∧ Agree k c' d' := by
  obtain ⟨hxc, hxq⟩ := hw.queued x hx
  obtain ⟨hxd, -⟩ := hu.queued x hx
  obtain ⟨r, dot, i, j, cs, rfl, -⟩ := hu.reached x hxd
  obtain rfl := (over_dotted.stopsAt _).1 hxq
  have hdk : d.length = k := by rw [hu.length, List.length_take_of_le hk]
  obtain ⟨hij, hjd⟩ := over_dotted.bounds hu.filed hxd
  have htreat := hw.treat hxc
  have htreat' := hu.treat hxd
  rcases offers_take h (hdk ▸ hjd) hij cs with heq | ⟨rfl, hnone, a, hone⟩
  · obtain ⟨hnew, hagree⟩ := h.putAll hw.filed hu.filed hw.all_dotted.plain hu.all_dotted.plain (hw.length ▸ hk)
      (Nat.le_of_eq hdk.symm) fun y hy => hdk ▸ hu.offers_over hxd hy
    rw [heq, hnew] at htreat
    exact ⟨_, _, _, htreat, htreat', hagree⟩
  · -- The word after the beginning is scanned in one of the parses, and that is no news at its end.
    rw [hone, filter_newOf_of_ne (List.forall_mem_singleton.2 ⟨i, j + 1, over_dotted, Nat.succ_ne_self j⟩)] at htreat
    rw [hnone] at htreat'
    refine ⟨_, _, _, htreat, htreat', h.putAll_left hw.filed ?_⟩
    exact List.forall_mem_singleton.2 ⟨i, j + 1, over_dotted, Nat.lt_succ_self j⟩

theorem Drains.agree (hne : p.grammar.hasEmptyRule = false) (hd : Drains p w q queue c n c')
    (hw : Progress p w q queue c) (hu : Progress p (w.take k) q queue d) (hk : k ≤ w.length) (h : Agree k c d) :
    ∃ d', Drains p (w.take k) q queue d n d' ∧ Agree k c' d' := by
  induction hd generalizing d with
  | done c => exact ⟨d, .done d, h⟩
  | step hx _ ih =>
    -- Work has one outcome, so the steps that keep the two invariants are those that agree.
    obtain ⟨fresh, c₁, d₁, hxw, hxu, hagree⟩ := hw.treat_agree hu hk h (List.mem_cons_self ..)
    obtain ⟨_, _, hxw', hw', -⟩ := hw.step hne
    obtain ⟨_, _, hxu', hu', -⟩ := hu.step hne
    obtain ⟨rfl, rfl⟩ := hx.unique hxw
    obtain ⟨rfl, rfl⟩ := hxw.unique hxw'
    obtain ⟨rfl, rfl⟩ := hxu.unique hxu'
    obtain ⟨d', hd', h'⟩ := ih hw' hu' hagree
    exact ⟨d', .step hxu hd', h'⟩

theorem Closes.agree (hne : p.grammar.hasEmptyRule = false) (hc : Closes p w (List.range' m len) c n c')
    (hlen : m + len ≤ k + 1) (hk : k ≤ w.length) (hw : Progress p w m (c.rowTo m).elems c)
    (hu : Progress p (w.take k) m (d.rowTo m).elems d) (h : Agree k c d) :
    ∃ d', Closes p (w.take k) (List.range' m len) d n d' ∧ Agree k c' d' := by
  induction len generalizing m c d n with
  | zero =>
    cases hc
    exact ⟨d, .nil d, h⟩
  | succ len ih =>
    cases hc with
    | cons _ hdrain hrest =>
      have hrow := h m (by omega)
      obtain ⟨d₁, hdrain', h₁⟩ := hdrain.agree hne hw (hrow ▸ hu) hk h
      rw [hrow] at hdrain'
      obtain ⟨d', hrest', h'⟩ := ih hrest (by omega) (hdrain.progress hne hw).1.next (hdrain'.progress hne hu).1.next h₁
      have hm : m ≤ d.length := by rw [hu.length, List.length_take_of_le hk]; omega
      exact ⟨d', .cons hm hdrain' hrest', h'⟩

theorem agree_seeded (hk : k ≤ w.length) : Agree k (p.seeded w) (p.seeded (w.take k)) := by
  have hplain : ∀ n, (Chart.empty n).Plain := fun n x hx => absurd hx (not_mem_empty n x)
  have hlen : k ≤ (Chart.empty (w.take k).length : Chart Item).length := Nat.le_of_eq (List.length_take_of_le hk).symm
  exact ((agree_empty k w.length _).put (filed_empty _) (filed_empty _) (hplain _) (hplain _) hk hlen (over_startItem p)
    rfl (Nat.le_refl 0) (Nat.zero_le k)).2

/-- The parse of the beginning takes up the same items, and what comes after it changes no row up to its end. -/
theorem Completes.take (hne : p.grammar.hasEmptyRule = false) (hc : Completes p w n c) (hk : k ≤ w.length) :
    ∃ m d, m ≤ n ∧ Completes p (w.take k) m d ∧ Agree k c d := by
  have hlen : (w.take k).length = k := List.length_take_of_le hk
  have hsplit : List.range (w.length + 1) = List.range' 0 (k + 1) ++ List.range' (k + 1) (w.length - k) := by
    have hw : w.length + 1 = (k + 1) + (w.length - k) := by omega
    rw [List.range_eq_range', hw, ← List.range'_append_1, Nat.zero_add]
  unfold Completes at hc
  rw [hsplit] at hc
  obtain ⟨m, m', c₁, hfirst, hrest, rfl⟩ := closes_append hc
  obtain ⟨d, hd, hagree⟩ := hfirst.agree hne (by omega) hk (progress_start p w) (progress_start p (w.take k))
    (agree_seeded hk)
  have hnext := (hfirst.progress hne (progress_start p w)).1
  rw [Nat.zero_add] at hnext
  refine ⟨m, d, Nat.le_max_left m m', ?_, fun j hj => ?_⟩
  · unfold Completes
    rwa [hlen, List.range_eq_range']
  · rw [(hrest.progress hne hnext).2.1 j (by omega)]
    exact hagree j hj

/-! ## What the chart says about the beginnings of the input -/

theorem mem_cell_iff (h : Agree k c d) (hc : c.Filed) (hd : d.Filed) (hcd : Dotted c) (hdd : Dotted d) {x : Item}
    {i j : Nat} (hj : j ≤ k) : x ∈ c.cell i j ↔ x ∈ d.cell i j := by
  constructor
  · intro hx
    obtain ⟨r, dot, a, b, cs, rfl, -⟩ := hcd x (hc.mem_of_cell hx)
    exact (h.mem_cell hc hd over_dotted hj).1 hx
  · intro hx
    obtain ⟨r, dot, a, b, cs, rfl, -⟩ := hdd x (hd.mem_of_cell hx)
    exact (h.mem_cell hc hd over_dotted hj).2 hx

/-- Of an input with a parse that ends, every beginning has one too, on the same fuel. Up to its end the two
charts list the same items in the same order, and it is accepted iff the chart of the whole input has a complete
item over it for the start symbol. -/
theorem parse_take (hp : ofGrammar g start = .ok p) {s : Logged Item} (hparse : p.parse fuel w = (.ok (), s))
    (hk : k ≤ w.length) :
    ∃ s', p.parse fuel (w.take k) = (.ok (), s') ∧
      (∀ q ≤ k, ∃ items, s.chart.itemsTo (.int q) = .ok items ∧ s'.chart.itemsTo (.int q) = .ok items) ∧
      ∃ accepted items, (p.recognize fuel (w.take k)).1 = .ok accepted ∧
        s.chart.completeItemsSpanning (.int 0) (.int k) = .ok items ∧
        (accepted = true ↔ ∃ x ∈ items, x.derives p.start = true) := by
  obtain ⟨hne, -, rfl⟩ := ofGrammar_eq_ok.1 hp
  obtain ⟨n, hn, hc⟩ := completes_of_parse hne hparse
  obtain ⟨m, d, hm, hd, hagree⟩ := hc.take hne hk
  have hwhole := hc.progress hne
  have htake := hd.progress hne
  have hdk : d.length = k := by rw [htake.length, List.length_take_of_le hk]
  have hck : k ≤ s.chart.length := by rwa [hwhole.length]
  have hm : m ≤ fuel := by omega
  obtain ⟨s', hs', rfl⟩ := hd.parse hm
  have hitems := htake.filed.fullParseItems_eq htake.all_dotted.plain (start.getD g.start)
  rw [hdk] at hitems
  refine ⟨s', hs', fun q hq => ⟨_, Chart.itemsTo_int (by omega), ?_⟩, _, _,
    ((hd.fill hm).bind (yields_accepted hitems)).answers _,
    hwhole.filed.completeItemsSpanning_int hwhole.all_dotted.plain (Nat.zero_le k) hck, ?_⟩
  · rw [Chart.itemsTo_int (by omega), hagree q hq]
  · have hcell : ∀ x, x ∈ s'.chart.cell 0 k ↔ x ∈ s.chart.cell 0 k := fun x =>
      (mem_cell_iff hagree hwhole.filed htake.filed hwhole.all_dotted htake.all_dotted (Nat.le_refl k)).symm
    rw [Bool.not_eq_true', List.isEmpty_eq_false_iff_exists_mem]
    simp only [List.mem_filter, hcell]

theorem parse_take_doubling :
    (ofGrammar .doubling none = .ok ⟨.doubling, "S"⟩ ∧ 2 ≤ ["a", "a", "a"].length) ∧
      ∃ fuel s s', parse ⟨.doubling, "S"⟩ fuel ["a", "a", "a"] = (.ok (), s) ∧
        parse ⟨.doubling, "S"⟩ fuel ["a", "a"] = (.ok (), s') ∧
        (∀ q ≤ (2 : Nat), ∃ items, s.chart.itemsTo (.int q) = .ok items ∧ s'.chart.itemsTo (.int q) = .ok items) ∧
        ∃ accepted items, (recognize ⟨.doubling, "S"⟩ fuel ["a", "a"]).1 = .ok accepted ∧
          s.chart.completeItemsSpanning (.int 0) (.int (2 : Nat)) = .ok items ∧
          (accepted = true ↔ ∃ x ∈ items, x.derives "S" = true) := by
  refine ⟨⟨ofGrammar_doubling, by decide⟩, ?_⟩
  obtain ⟨fuel, s, hs⟩ := exists_parse_doubling ["a", "a", "a"]
  obtain ⟨s', h⟩ := parse_take ofGrammar_doubling hs (k := 2) (by decide)
  exact ⟨fuel, s, s', hs, h⟩

end Earley

end ParseChart
