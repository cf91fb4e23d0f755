import ParseChart.Proofs.Chart.Growth
import ParseChart.Proofs.Earley.Course
/-!
# The treatments of a parse

A parse treats each item of its chart once, in the order of the queues. An advanced item tells which treatment made
it: its last child is the complete item that was treated or, after a scan, the word behind the item that was. So what
a treatment completes or scans is new, and only predicted items are ever refused.
-/

namespace ParseChart.Earley

open ChartItem ChartM

/-- An item taken from a queue, with the insertions that this led to. -/
structure Treatment where
  item : Item
  made : List (Attempt Item)

/-- Whether the treatment of an item predicts, as a nonterminal stands after its dot. -/
def predicts (p : Earley) (x : Item) : Bool :=
  match x.nextSymbol with
  | .ok (some a) => !p.grammar.isTerminal a
  | _ => false

/-- Treatments one after another, each at the position where its item stops. -/
inductive Treats (p : Earley) (w : List String) : Chart Item → List Treatment → Chart Item → Prop
  | nil (c : Chart Item) : Treats p w c [] c
  | cons {k : Nat} {x : Item} {fresh : List Item} {made : List (Attempt Item)} {ts : List Treatment} {c c' c'' : Chart Item} :
      x.stop? = some (.int k) → Inserting (p.treat w k x) c fresh made c' → Treats p w c' ts c'' →
      Treats p w c (⟨x, made⟩ :: ts) c''

variable {p : Earley} {w : List String} {c c' c'' : Chart Item} {k n fuel len : Nat} {x y : Item} {ts us : List Treatment}
  {past queue rest : List Item} {r : Rule} {d i : Nat} {cs : List Item}

theorem Treats.append (h : Treats p w c ts c') (h' : Treats p w c' us c'') : Treats p w c (ts ++ us) c'' := by
  induction h with
  | nil => exact h'
  | cons hx hmade _ ih => exact .cons hx hmade (ih h')

theorem predicts_dotted {j : Nat} :
    p.predicts (dotted r d i j cs) = true ↔ ∃ a, r.rhs[d]? = some a ∧ p.grammar.isTerminal a = false := by
  show (match r.symbolAt d with
    | .ok (some a) => !p.grammar.isTerminal a
    | _ => false) = true ↔ _
  rw [symbolAt_nat]
  cases r.rhs[d]? <;> simp

/-! ## Where advanced items come from -/

/-- The treatment of the one item makes the other. -/
inductive Source : Item → Item → Prop
  | scan {r d i k cs a} : Source (dotted r d i k cs) (dotted r (d + 1) i (k + 1) (cs ++ [.word a]))
  | complete {r d i k cs r' d' i' cs'} :
      Source (dotted r d i k cs) (dotted r' (d' + 1) i' k (cs' ++ [dotted r d i k cs]))

/-- The last child tells which item was treated. -/
theorem Source.unique {x' : Item} (h : Source x y) (h' : Source x' y) : x = x' := by
  generalize hy : y = y' at h'
  cases h with
  | scan =>
    cases h' with
    | scan =>
      obtain ⟨rfl, hd, rfl, hk, hcs⟩ := dotted_inj hy
      obtain ⟨rfl, -⟩ := List.append_inj' hcs rfl
      rw [Nat.succ.inj hd, Nat.succ.inj hk]
    | complete =>
      obtain ⟨-, -, -, -, hcs⟩ := dotted_inj hy
      cases (List.append_inj' hcs rfl).2
  | complete =>
    cases h' with
    | scan =>
      obtain ⟨-, -, -, -, hcs⟩ := dotted_inj hy
      cases (List.append_inj' hcs rfl).2
    | complete =>
      obtain ⟨-, -, -, -, hcs⟩ := dotted_inj hy
      exact List.singleton_inj.1 (List.append_inj' hcs rfl).2

theorem not_source_predicted {s : Rule} : ¬ Source x (dotted s 0 k k []) := by
  generalize hy : dotted s 0 k k [] = y
  intro h
  cases h <;> obtain ⟨-, hd, -⟩ := dotted_inj hy <;> cases hd

theorem Follows.predicted_or_source (h : Follows p w c r d i k cs y) :
    (p.predicts (dotted r d i k cs) = true ∧ ∃ s, y = dotted s 0 k k []) ∨ Source (dotted r d i k cs) y := by
  cases h with
  | predict hs hd => exact .inl ⟨predicts_dotted.2 ⟨_, hd, Grammar.isTerminal_eq_false hs⟩, _, rfl⟩
  | scan => exact .inr .scan
  | complete => exact .inr .complete

/-- Different parents that stop at one position are advanced to different items. -/
theorem nodup_advances (hf : c.Filed) (hd : Formed c) (symbol : String) (child : Item) :
    (advances symbol child k (c.rowTo i).elems).Nodup := by
  unfold advances
  rw [List.nodup_iff_pairwise_ne, List.pairwise_filterMap]
  refine (hf.nodup_to i).imp_of_mem fun {x x'} hx hx' hne y hy y' hy' he => hne ?_
  subst he
  obtain ⟨r₁, d₁, i₁, j₁, cs₁, rfl⟩ := hd x ⟨i, hx⟩
  obtain ⟨r₂, d₂, i₂, j₂, cs₂, rfl⟩ := hd x' ⟨i, hx'⟩
  obtain ⟨-, rfl⟩ := (over_dotted.mem_rowTo hf i).1 hx
  obtain ⟨-, rfl⟩ := (over_dotted.mem_rowTo hf _).1 hx'
  simp only [dotted, Int.toNat_natCast, Option.ite_none_right_eq_some, Option.some.injEq] at hy hy'
  have h : dotted r₁ (d₁ + 1) i₁ k (cs₁ ++ [child]) = dotted r₂ (d₂ + 1) i₂ k (cs₂ ++ [child]) :=
    hy.2.trans hy'.2.symm
  obtain ⟨rfl, hdot, rfl, -, hcs⟩ := dotted_inj h
  rw [Nat.succ.inj hdot, (List.append_inj' hcs rfl).1]

/-- What is completed or scanned is offered once. -/
theorem nodup_offers (hf : c.Filed) (hd : Formed c) (hp : p.predicts (dotted r d i k cs) = false) :
    (p.offers w c r d i k cs).Nodup := by
  unfold offers
  split
  · exact nodup_advances hf hd _ _
  · rename_i a ha
    split
    · rename_i hn
      have hpredicts : p.predicts (dotted r d i k cs) = true := predicts_dotted.2 ⟨a, ha, by simpa using hn⟩
      exact absurd (hp.symm.trans hpredicts) Bool.false_ne_true
    · split
      · exact List.pairwise_singleton _ _
      · exact .nil

/-! ## Work that treats items -/

/-- The work does these treatments, and no insertions but theirs, of which all are new that are not predicted. -/
structure Performs {α : Type} (p : Earley) (w : List String) (work : ChartM Item α) (c : Chart Item) (a : α)
    (ts : List Treatment) (c' : Chart Item) : Prop where
  inserting : Inserting work c a (ts.flatMap (·.made)) c'
  treats : Treats p w c ts c'
  isNew : ∀ t ∈ ts, p.predicts t.item = false → ∀ o ∈ t.made, o.isNew = true

theorem performs_of_none {α : Type} {work : ChartM Item α} {a : α} (h : Inserting work c a [] c) :
    Performs p w work c a [] c := ⟨h, .nil c, by simp⟩

theorem Performs.bind {α β : Type} {work : ChartM Item α} {next : α → ChartM Item β} {a : α} {b : β}
    (h : Performs p w work c a ts c') (h' : Performs p w (next a) c' b us c'') :
    Performs p w (work >>= next) c b (ts ++ us) c'' where
  inserting := by
    rw [List.flatMap_append]
    exact h.inserting.bind h'.inserting
  treats := h.treats.append h'.treats
  isNew := List.forall_mem_append.2 ⟨h.isNew, h'.isNew⟩

/-- Treated items and a queue, together all that stops up to `k`, each once. What was advanced comes from the treated. -/
structure Traced (p : Earley) (w : List String) (k : Nat) (past queue : List Item) (c : Chart Item) : Prop where
  progress : Progress p w k queue c
  nodup : (past ++ queue).Nodup
  upto : ∀ x, x ∈ past ++ queue ↔ ∃ j ≤ k, x ∈ (c.rowTo j).elems
  source : ∀ {x y}, y ∈ c → Source x y → x ∈ past

theorem Traced.mem (h : Traced p w k past queue c) (hx : x ∈ past ++ queue) : x ∈ c := by
  obtain ⟨j, -, hx⟩ := (h.upto x).1 hx
  exact ⟨j, hx⟩

theorem traced_start (p : Earley) (w : List String) :
    Traced p w 0 [] ((p.seeded w).rowTo 0).elems (p.seeded w) where
  progress := progress_start p w
  nodup := (progress_start p w).filed.nodup_to 0
  upto x := by simp
  source hy hsource := by
    rw [mem_seeded.1 hy] at hsource
    exact absurd hsource not_source_predicted

theorem Traced.next (h : Traced p w k past [] c) : Traced p w (k + 1) past (c.rowTo (k + 1)).elems c where
  progress := h.progress.next
  nodup := by
    have hn := h.nodup
    rw [List.append_nil] at hn
    refine List.nodup_append.2 ⟨hn, h.progress.filed.nodup_to _, ?_⟩
    rintro x hx _ hx' rfl
    obtain ⟨j, hj, hxj⟩ := (h.upto x).1 (List.mem_append_left _ hx)
    have := h.progress.filed.rowTo_unique hxj hx'
    omega
  upto x := by
    have hpast := h.upto x
    rw [List.append_nil] at hpast
    rw [List.mem_append, hpast]
    constructor
    · rintro (⟨j, hj, hx⟩ | hx)
      · exact ⟨j, Nat.le_succ_of_le hj, hx⟩
      · exact ⟨_, Nat.le_refl _, hx⟩
    · rintro ⟨j, hj, hx⟩
      rcases Nat.le_succ_iff.1 hj with hj | rfl
      · exact .inl ⟨j, hj, hx⟩
      · exact .inr hx
  source := h.source

/-- What the next treatment offers is new unless it predicts. -/
theorem Traced.newOf_offers (h : Traced p w k past (dotted r d i k cs :: rest) c)
    (hp : p.predicts (dotted r d i k cs) = false) :
    c.newOf (p.offers w c r d i k cs) = p.offers w c r d i k cs := by
  have hf := h.progress.filed
  have hd := h.progress.all_dotted
  have hx : dotted r d i k cs ∈ c := h.mem (by simp)
  refine hf.newOf_eq_self hd.plain (nodup_offers hf hd.formed hp) fun y hy => ?_
  obtain ⟨hplain, i', j', hover, hij, hj⟩ := h.progress.offers_over hx hy
  obtain ⟨id, hplace⟩ := hover.place c hij hj
  refine ⟨⟨hplain, _, hplace⟩, fun hyc => ?_⟩
  -- If it was there, its source was treated before, but that is the item at hand.
  rcases ((mem_offers hf hd.formed).1 hy).predicted_or_source with ⟨hpred, -⟩ | hsource
  · exact absurd (hp.symm.trans hpred) Bool.false_ne_true
  · exact (List.nodup_append.1 h.nodup).2.2 _ (h.source hyc hsource) _ (List.mem_cons_self ..) rfl

/-- What is new at the position is all that comes to stop up to it. -/
theorem Traced.mem_rowTo_treated (h : Traced p w k past (dotted r d i k cs :: rest) c) :
    (∃ j ≤ k, y ∈ ((c.putAll (p.offers w c r d i k cs)).rowTo j).elems) ↔
      y ∈ past ++ dotted r d i k cs :: rest ∨ y ∈ (c.newOf (p.offers w c r d i k cs)).filter (stopsAt k) := by
  have hf := h.progress.filed
  rw [h.upto, List.mem_filter]
  constructor
  · rintro ⟨j, hj, hy⟩
    rcases Nat.eq_or_lt_of_le hj with rfl | hlt
    · exact (hf.mem_rowTo_putAll.1 hy).imp_left fun hy => ⟨j, hj, hy⟩
    · rw [h.progress.rowTo_treated (h.mem (by simp)) hlt] at hy
      exact .inl ⟨j, hj, hy⟩
  · rintro (⟨j, hj, hy⟩ | hy)
    · exact ⟨j, hj, hf.mem_rowTo_putAll.2 (.inl hy)⟩
    · exact ⟨k, Nat.le_refl k, hf.mem_rowTo_putAll.2 (.inr hy)⟩

theorem Traced.treated (hne : p.grammar.hasEmptyRule = false) (h : Traced p w k past (dotted r d i k cs :: rest) c) :
    Traced p w k (past ++ [dotted r d i k cs]) (rest ++ (c.newOf (p.offers w c r d i k cs)).filter (stopsAt k))
      (c.putAll (p.offers w c r d i k cs)) := by
  obtain ⟨hn, hnew⟩ := h.progress.filed.newOf_fresh (p.offers w c r d i k cs)
  have hmove : ∀ fresh, past ++ [dotted r d i k cs] ++ (rest ++ fresh) = (past ++ dotted r d i k cs :: rest) ++ fresh := by
    simp
  refine ⟨h.progress.treated hne, ?_, fun y => ?_, fun {x y} hy hsource => ?_⟩
  · rw [hmove]
    refine List.nodup_append.2 ⟨h.nodup, hn.filter _, ?_⟩
    rintro y hy _ hy' rfl
    exact hnew y (List.mem_of_mem_filter hy') (h.mem hy)
  · rw [hmove, List.mem_append, h.mem_rowTo_treated]
  · rw [List.mem_append, List.mem_singleton]
    rcases (h.progress.mem_treated (h.mem (by simp))).1 hy with hy | hfollows
    · exact .inl (h.source hy hsource)
    · rcases hfollows.predicted_or_source with ⟨-, s, rfl⟩ | hmade
      · exact absurd hsource not_source_predicted
      · exact .inr (hsource.unique hmade)

/-- A step of the loop treats the first item of the queue. -/
theorem Traced.step (hne : p.grammar.hasEmptyRule = false) (h : Traced p w k past (x :: rest) c) :
    ∃ made fresh c', Performs p w (p.treat w k x) c fresh [⟨x, made⟩] c' ∧
      Traced p w k (past ++ [x]) (rest ++ fresh) c' := by
  obtain ⟨hx, hxk⟩ := h.progress.queued x (List.mem_cons_self ..)
  obtain ⟨r, d, i, j, cs, rfl, -⟩ := h.progress.reached x hx
  obtain rfl := (over_dotted.stopsAt _).1 hxk
  have htreat := h.progress.inserting_treat hx
  refine ⟨_, _, _, ⟨?_, .cons over_dotted.stop htreat (.nil _), ?_⟩, h.treated hne⟩
  · rwa [List.flatMap_singleton]
  · exact List.forall_mem_singleton.2 fun hp => Chart.isNew_of_newOf (h.newOf_offers hp)

/-- The loop treats what stops at its position. -/
theorem Drains.traced (hne : p.grammar.hasEmptyRule = false) (hd : Drains p w k queue c n c')
    (h : Traced p w k past queue c) :
    ∃ ts, (∀ fuel, n ≤ fuel → Performs p w (p.drain w k fuel queue) c () ts c') ∧
      Traced p w k (past ++ ts.map (·.item)) [] c' := by
  induction hd generalizing past with
  | done c =>
    refine ⟨[], fun fuel _ => ?_, by rwa [List.map_nil, List.append_nil]⟩
    cases fuel <;> exact performs_of_none (inserting_pure () c)
  | @step x rest fresh c c₁ c' n hx _ ih =>
    obtain ⟨made, fresh', c₂, htreat, h'⟩ := h.step hne
    obtain ⟨rfl, rfl⟩ := hx.unique htreat.inserting.yields
    obtain ⟨ts, hloop, hend⟩ := ih h'
    refine ⟨⟨x, made⟩ :: ts, fun fuel hf => ?_, by rwa [List.append_assoc] at hend⟩
    obtain ⟨fuel, rfl⟩ : ∃ f, fuel = f + 1 := ⟨fuel - 1, by omega⟩
    exact htreat.bind (hloop fuel (by omega))

theorem Closes.traced (hne : p.grammar.hasEmptyRule = false) (hc : Closes p w (List.range' k len) c n c')
    (h : Traced p w k past (c.rowTo k).elems c) :
    ∃ ts, (∀ fuel, n ≤ fuel → Performs p w ((List.range' k len).forM fun k => p.closure fuel w k) c () ts c') ∧
      Traced p w (k + len) (past ++ ts.map (·.item)) (c'.rowTo (k + len)).elems c' := by
  induction len generalizing k c n past with
  | zero =>
    cases hc
    exact ⟨[], fun _ _ => performs_of_none (inserting_pure () _), by rwa [List.map_nil, List.append_nil]⟩
  | succ len ih =>
    cases hc with
    | cons hk hd hrest =>
      obtain ⟨ts, hloop, hdone⟩ := hd.traced hne h
      obtain ⟨us, hloops, hend⟩ := ih hrest hdone.next
      rw [List.append_assoc, ← List.map_append, Nat.add_right_comm] at hend
      refine ⟨ts ++ us, fun fuel hf => ?_, hend⟩
      exact ((performs_of_none (inserting_itemsTo hk)).bind (hloop fuel (by omega))).bind (hloops fuel (by omega))

/-- When all positions are closed, the whole chart has been treated. -/
theorem Traced.mem_end (h : Traced p w (w.length + 1) past [] c) : x ∈ past ↔ x ∈ c := by
  have hx := h.upto x
  rw [List.append_nil] at hx
  rw [hx]
  constructor
  · exact fun ⟨j, _, hxj⟩ => ⟨j, hxj⟩
  · rintro ⟨j, hxj⟩
    obtain ⟨q, hq, rfl, -⟩ := h.progress.filed.of_to j x hxj
    have := (Chart.place_eq_ok hq).2.2.2.2
    have := h.progress.length
    exact ⟨_, by omega, hxj⟩

/-- A parse that ends has treated each item of its chart once, and made no insertions but those of the start item and of
the treatments. All of these answer true but some of the treatments that predict. -/
theorem exists_treats (hne : p.grammar.hasEmptyRule = false) {s : Logged Item} (h : p.parse fuel w = (.ok (), s)) :
    ∃ ts, Treats p w (p.seeded w) ts s.chart ∧ (ts.map (·.item)).Nodup ∧ (∀ x, x ∈ ts.map (·.item) ↔ x ∈ s.chart) ∧
      Tells s.records (⟨p.startItem, true⟩ :: ts.flatMap (·.made)) ∧
      ∀ t ∈ ts, p.predicts t.item = false → ∀ o ∈ t.made, o.isNew = true := by
  obtain ⟨n, hn, hc⟩ := completes_of_parse hne h
  unfold Completes at hc
  rw [List.range_eq_range'] at hc
  obtain ⟨ts, hperforms, hend⟩ := hc.traced hne (traced_start p w)
  rw [Nat.zero_add, hend.progress.rowTo_end, List.nil_append] at hend
  have hclosures := hperforms fuel hn
  have hseed : Inserting (insert p.startItem) (.empty w.length) true [⟨p.startItem, true⟩] (p.seeded w) := by
    obtain ⟨id, hp⟩ := (over_startItem p).place (.empty w.length) (Nat.le_refl 0) (Nat.zero_le _)
    rw [← adds_startItem p w]
    exact inserting_insert hp
  have hfill : Inserting (p.fill fuel w) (.empty w.length) () (⟨p.startItem, true⟩ :: ts.flatMap (·.made)) s.chart := by
    have hloop := hclosures.inserting
    rw [← List.range_eq_range'] at hloop
    exact hseed.bind (hloop.bind_nil ((inserting_chart _).bind (inserting_tellAs _ rfl rfl _)))
  obtain ⟨s', hs', -, htells⟩ := hfill.onEmpty Chart.logName
  obtain rfl : s' = s := congrArg Prod.snd (hs'.symm.trans h)
  exact ⟨ts, hclosures.treats, List.append_nil (ts.map _) ▸ hend.nodup, fun _ => hend.mem_end, htells, hclosures.isNew⟩

end ParseChart.Earley
