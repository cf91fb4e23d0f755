import ParseChart.Earley
import ParseChart.Proofs.Chart.Work
/-!
# Runs of the loop

What the loop of a closure does, step by step and without fuel: `Drains` leads from a queue and a chart to
the chart where the queue is empty, in so many steps, and `Closes` closes some positions one after
another. A loop that leads somewhere in `n` steps does so on any fuel from `n` up, and on less fuel runs
out. What each step keeps the whole loop keeps.
-/

namespace ParseChart.Earley

open ChartM

/-- The loop at `k` treats a queue, and what that brings, one item a step. -/
inductive Drains (p : Earley) (w : List String) (k : Nat) : List Item → Chart Item → Nat → Chart Item → Prop
  | done (c : Chart Item) : Drains p w k [] c 0 c
  | step {x : Item} {rest fresh : List Item} {c c' c'' : Chart Item} {n : Nat} : Yields (p.treat w k x) c fresh c' →
      Drains p w k (rest ++ fresh) c' n c'' → Drains p w k (x :: rest) c (n + 1) c''

/-- Closing the positions in turn takes up to `n` steps for each of them. -/
inductive Closes (p : Earley) (w : List String) : List Nat → Chart Item → Nat → Chart Item → Prop
  | nil (c : Chart Item) : Closes p w [] c 0 c
  | cons {k : Nat} {ks : List Nat} {c c' c'' : Chart Item} {n m : Nat} : k ≤ c.length →
      Drains p w k (c.rowTo k).elems c n c' → Closes p w ks c' m c'' → Closes p w (k :: ks) c (max n m) c''

variable {p : Earley} {w : List String} {k fuel n m : Nat} {queue : List Item} {ks ls : List Nat} {c c' c'' : Chart Item}

theorem Drains.yields (h : Drains p w k queue c n c') (hn : n ≤ fuel) : Yields (p.drain w k fuel queue) c () c' := by
  induction h generalizing fuel with
  | done c => cases fuel <;> exact yields_pure () c
  | step hx _ ih =>
    obtain ⟨fuel, rfl⟩ : ∃ f, fuel = f + 1 := ⟨fuel - 1, by omega⟩
    exact hx.bind (ih (by omega))

theorem Drains.runsOut (h : Drains p w k queue c n c') (hn : fuel < n) : RunsOut (p.drain w k fuel queue) c := by
  induction h generalizing fuel with
  | done c => cases hn
  | step hx _ ih =>
    cases fuel with
    | zero => exact fun s _ => rfl
    | succ fuel => exact hx.bind_runsOut (ih (by omega))

section Invariant

variable (Inv : List Item → Chart Item → Prop)

/-- A loop that keeps an invariant under which no item is treated with a fault has run its course if its fuel lasts. -/
theorem drains_of_run
    (hstep : ∀ {x rest c}, Inv (x :: rest) c → ∃ c' fresh, Yields (p.treat w k x) c fresh c' ∧ Inv (rest ++ fresh) c')
    {s s' : Logged Item} {answer : Except Halt Unit} (h : Inv queue s.chart)
    (hrun : (p.drain w k fuel queue).run.run s = (answer, s')) (hends : answer ≠ .error .unfinished) :
    answer = .ok () ∧ ∃ n, n ≤ fuel ∧ Drains p w k queue s.chart n s'.chart := by
  induction fuel generalizing queue s with
  | zero =>
    cases queue with
    | nil =>
      cases hrun
      exact ⟨rfl, 0, Nat.le_refl 0, .done _⟩
    | cons x rest =>
      cases hrun
      exact absurd rfl hends
  | succ fuel ih =>
    cases queue with
    | nil =>
      cases hrun
      exact ⟨rfl, 0, Nat.zero_le _, .done _⟩
    | cons x rest =>
      obtain ⟨c', fresh, hx, h'⟩ := hstep h
      obtain ⟨t, rfl, ht⟩ := hx.run_bind rfl fun fresh => p.drain w k fuel (rest ++ fresh)
      obtain ⟨hanswer, n, hn, hd⟩ := ih h' (ht.symm.trans hrun)
      exact ⟨hanswer, n + 1, Nat.succ_le_succ hn, .step hx hd⟩

/-- The invariant holds at the end of the loop, which takes a step for each item queued or counted by `size` since. -/
theorem Drains.keeps (size : Chart Item → Nat)
    (hstep : ∀ {x rest c}, Inv (x :: rest) c → ∃ c' fresh, Yields (p.treat w k x) c fresh c' ∧ Inv (rest ++ fresh) c' ∧
      size c' = size c + fresh.length) (hd : Drains p w k queue c n c') (h : Inv queue c) :
    Inv [] c' ∧ n + size c = queue.length + size c' := by
  induction hd with
  | done c => exact ⟨h, by simp⟩
  | step hx _ ih =>
    obtain ⟨c', fresh, hx', h', hsize⟩ := hstep h
    obtain ⟨rfl, rfl⟩ := hx.unique hx'
    obtain ⟨hdone, hsteps⟩ := ih h'
    refine ⟨hdone, ?_⟩
    simp only [List.length_append, List.length_cons] at hsteps ⊢
    omega

end Invariant

/-- Items that bring nothing new are treated one after another. -/
theorem drains_of_settled (h : ∀ x ∈ queue, Yields (p.treat w k x) c [] c) : Drains p w k queue c queue.length c := by
  induction queue with
  | nil => exact .done c
  | cons x rest ih =>
    have hrest := ih fun y hy => h y (List.mem_cons_of_mem x hy)
    exact .step (h x (List.mem_cons_self ..)) (by rwa [List.append_nil])

theorem Closes.yields (h : Closes p w ks c n c') (hn : n ≤ fuel) :
    Yields (ks.forM fun k => p.closure fuel w k) c () c' := by
  induction h with
  | nil c => exact yields_pure () c
  | cons hk hd _ ih =>
    have hdrain := hd.yields (Nat.le_trans (Nat.le_max_left _ _) hn)
    exact ((yields_itemsTo hk).bind hdrain).bind (ih (by omega))

theorem Closes.runsOut (h : Closes p w ks c n c') (hn : fuel < n) :
    RunsOut (ks.forM fun k => p.closure fuel w k) c := by
  induction h with
  | nil c => cases hn
  | @cons k ks c c' c'' n m hk hd _ ih =>
    by_cases hfuel : fuel < n
    · exact ((yields_itemsTo hk).bind_runsOut (hd.runsOut hfuel)).bind _
    · have hdrain := hd.yields (Nat.le_of_not_lt hfuel)
      exact ((yields_itemsTo hk).bind hdrain).bind_runsOut (ih (by omega))

theorem closes_append (h : Closes p w (ks ++ ls) c n c'') :
    ∃ m m' c', Closes p w ks c m c' ∧ Closes p w ls c' m' c'' ∧ n = max m m' := by
  induction ks generalizing c n with
  | nil => exact ⟨0, n, c, .nil c, h, by simp⟩
  | cons k ks ih =>
    cases h with
    | cons hk hd h =>
      obtain ⟨m, m', c', hks, hls, rfl⟩ := ih h
      exact ⟨_, m', c', .cons hk hd hks, hls, by rw [Nat.max_assoc]⟩

/-! ## Whole parses -/

/-- The chart on which the first position is closed. -/
def seeded (p : Earley) (w : List String) : Chart Item := (Chart.empty w.length).put p.startItem

/-- A parse leads to the chart `c`, in up to `n` steps at each position. -/
def Completes (p : Earley) (w : List String) (n : Nat) (c : Chart Item) : Prop :=
  Closes p w (List.range (w.length + 1)) (p.seeded w) n c

theorem yields_seed (p : Earley) (w : List String) :
    ∃ isNew, Yields (insert p.startItem) (.empty w.length) isNew (p.seeded w) := by
  obtain ⟨id, hp⟩ := ChartItem.Over.place (x := p.startItem) ⟨⟨_, rfl, rfl⟩, rfl, rfl⟩ (.empty w.length) (Nat.le_refl 0)
    (Nat.zero_le _)
  exact ⟨_, yields_insert hp⟩

theorem Completes.fill (h : Completes p w n c) (hn : n ≤ fuel) : Yields (p.fill fuel w) (.empty w.length) () c := by
  obtain ⟨isNew, hseed⟩ := yields_seed p w
  exact hseed.bind ((h.yields hn).bind ((yields_chart c).bind (yields_tellAs _ _ c)))

theorem Completes.parse (h : Completes p w n c) (hn : n ≤ fuel) :
    ∃ s, p.parse fuel w = (.ok (), s) ∧ s.chart = c := (h.fill hn).onEmpty Chart.logName

theorem Completes.unfinished (h : Completes p w n c) (hn : fuel < n) :
    (p.parse fuel w).1 = .error .unfinished := by
  obtain ⟨isNew, hseed⟩ := yields_seed p w
  exact (hseed.bind_runsOut ((h.runsOut hn).bind _)).onEmpty Chart.logName

end ParseChart.Earley
