import ParseChart.Chart.Logged
import ParseChart.Proofs.Chart.Answers
/-!
# Runs of work on a chart

`Yields` says what a computation answers and which chart it leaves, whatever the log, and `Outcome` says the
same of one that may end with a fault. They hold of the steps of `ChartM` by what the chart's own operations
answer, and compose along `>>=`.
-/

namespace ParseChart.ChartM

variable {ι : Type}

/-- On the chart `c`, whatever the log, the work answers `a` without a fault and leaves `c'`. -/
def Yields {α : Type} (work : ChartM ι α) (c : Chart ι) (a : α) (c' : Chart ι) : Prop :=
  ∀ s : Logged ι, s.chart = c → ∃ s', work.run.run s = (.ok a, s') ∧ s'.chart = c'

/-- On the chart `c`, whatever the log, the work ends with this answer or fault and leaves `c'`. -/
def Outcome {α : Type} (work : ChartM ι α) (c : Chart ι) (answer : Except Halt α) (c' : Chart ι) : Prop :=
  ∀ s : Logged ι, s.chart = c → ∃ s', work.run.run s = (answer, s') ∧ s'.chart = c'

variable {α β : Type} {c c' c'' : Chart ι}

theorem Yields.outcome {work : ChartM ι α} {a : α} (h : Yields work c a c') : Outcome work c (.ok a) c' := h

theorem yields_pure (a : α) (c : Chart ι) : Yields (pure a) c a c := fun s hs => ⟨s, rfl, hs⟩

/-- After work with a known answer goes on what is left. -/
theorem Yields.run_bind {work : ChartM ι α} {a : α} (h : Yields work c a c') {s : Logged ι} (hs : s.chart = c)
    (next : α → ChartM ι β) : ∃ s', s'.chart = c' ∧ (work >>= next).run.run s = (next a).run.run s' := by
  obtain ⟨s', hr, hs'⟩ := h s hs
  refine ⟨s', hs', ?_⟩
  rw [ExceptT.run_bind, StateT.run_bind, hr]
  rfl

theorem run_bind_eq_ok {work : ChartM ι α} {next : α → ChartM ι β} {b : β} {s s'' : Logged ι}
    (h : (work >>= next).run.run s = (.ok b, s'')) :
    ∃ a s', work.run.run s = (.ok a, s') ∧ (next a).run.run s' = (.ok b, s'') := by
  rw [ExceptT.run_bind, StateT.run_bind] at h
  generalize work.run.run s = result at h
  obtain ⟨answer, s'⟩ := result
  cases answer with
  | error halt => cases h
  | ok a => exact ⟨a, s', rfl, h⟩

theorem Yields.bind_outcome {work : ChartM ι α} {next : α → ChartM ι β} {a : α} {answer : Except Halt β}
    (h : Yields work c a c') (h' : Outcome (next a) c' answer c'') : Outcome (work >>= next) c answer c'' := by
  intro s hs
  obtain ⟨s', hs', hrun⟩ := h.run_bind hs next
  rw [hrun]
  exact h' s' hs'

theorem Yields.bind {work : ChartM ι α} {next : α → ChartM ι β} {a : α} {b : β} (h : Yields work c a c')
    (h' : Yields (next a) c' b c'') : Yields (work >>= next) c b c'' := h.bind_outcome h'.outcome

/-- A fault ends the whole work. -/
theorem Outcome.bind_error {work : ChartM ι α} {halt : Halt} (h : Outcome work c (.error halt) c') (next : α → ChartM ι β) :
    Outcome (work >>= next) c (.error halt) c' := by
  intro s hs
  obtain ⟨s', hr, hs'⟩ := h s hs
  refine ⟨s', ?_, hs'⟩
  rw [ExceptT.run_bind, StateT.run_bind, hr]
  rfl

/-- Work has one outcome. -/
theorem Outcome.unique {work : ChartM ι α} {answer answer' : Except Halt α} (h : Outcome work c answer c')
    (h' : Outcome work c answer' c'') : answer = answer' ∧ c' = c'' := by
  obtain ⟨s, hs, rfl⟩ := h ⟨c, "", []⟩ rfl
  obtain ⟨t, ht, rfl⟩ := h' ⟨c, "", []⟩ rfl
  rw [hs] at ht
  cases ht
  exact ⟨rfl, rfl⟩

theorem Yields.unique {work : ChartM ι α} {a b : α} (h : Yields work c a c') (h' : Yields work c b c'') :
    a = b ∧ c' = c'' := by
  obtain ⟨he, hc⟩ := h.outcome.unique h'.outcome
  exact ⟨Except.ok.inj he, hc⟩

theorem outcome_throw (halt : Halt) (c : Chart ι) : Outcome (throw halt : ChartM ι α) c (.error halt) c :=
  fun s hs => ⟨s, rfl, hs⟩

theorem yields_tellAs (source : String) (event : Event) (c : Chart ι) : Yields (tellAs source event) c () c :=
  fun _ hs => ⟨_, rfl, hs⟩

theorem yields_tell (event : Event) (c : Chart ι) : Yields (tell event) c () c := fun _ hs => ⟨_, rfl, hs⟩

theorem yields_chart (c : Chart ι) : Yields chart c c c := fun s hs => ⟨s, hs ▸ rfl, hs⟩

theorem yields_ofExcept {answer : Except Fault α} {a : α} (h : answer = .ok a) (c : Chart ι) :
    Yields (ofExcept answer) c a c := h ▸ yields_pure a c

theorem yields_ask {question : Chart ι → Except Fault α} {a : α} (h : question c = .ok a) : Yields (ask question) c a c :=
  (yields_chart c).bind (yields_ofExcept h c)

theorem yields_list {question : Chart ι → Except Fault (List α)} {event : Nat → Event} {answers : List α}
    (h : question c = .ok answers) : Yields (list question event) c answers c :=
  (yields_ask h).bind ((yields_tell _ c).bind (yields_pure _ c))

theorem yields_itemsTo {j : Nat} (hj : j ≤ c.length) : Yields (itemsTo (.int j)) c (c.rowTo j).elems c :=
  yields_list (Chart.itemsTo_int hj)

/-! ## Loops -/

/-- A loop each of whose passes, at an element of the list, needs and keeps an invariant of what was done. Of the
loop holds what holds of each pass, if it composes. -/
theorem forM_rule {R : ChartM ι Unit → Chart ι → Chart ι → Prop} (hpure : ∀ c, R (pure ()) c c)
    (hbind : ∀ {work next c c' c''}, R work c c' → R next c' c'' → R (work >>= fun _ => next) c c'')
    (body : α → ChartM ι Unit) (xs : List α) (Inv : List α → Chart ι → Prop)
    (hstep : ∀ done x rest c, xs = done ++ x :: rest → Inv done c → ∃ c', R (body x) c c' ∧ Inv (done ++ [x]) c')
    (h : Inv [] c) : ∃ c', R (xs.forM body) c c' ∧ Inv xs c' := by
  suffices ∀ done rest c, xs = done ++ rest → Inv done c →
      ∃ c', R (rest.forM body) c c' ∧ Inv xs c' from this [] xs c rfl h
  intro done rest
  induction rest generalizing done with
  | nil =>
    intro c hxs hc
    rw [List.append_nil] at hxs
    exact ⟨c, hpure c, hxs ▸ hc⟩
  | cons x rest ih =>
    intro c hxs hc
    obtain ⟨c', hx, hc'⟩ := hstep done x rest c hxs hc
    obtain ⟨c'', hrest, hc''⟩ := ih (done ++ [x]) c' (by simp [hxs]) hc'
    exact ⟨c'', hbind hx hrest, hc''⟩

theorem yields_forM (body : α → ChartM ι Unit) (xs : List α) (Inv : List α → Chart ι → Prop)
    (hstep : ∀ done x rest c, xs = done ++ x :: rest → Inv done c →
      ∃ c', Yields (body x) c () c' ∧ Inv (done ++ [x]) c')
    (h : Inv [] c) : ∃ c', Yields (xs.forM body) c () c' ∧ Inv xs c' :=
  forM_rule (R := fun work c c' => Yields work c () c') (yields_pure ()) (fun h h' => h.bind h') body xs Inv hstep h

/-- Two loops beside each other: of the elements of the first one, some are those of the second in their order, and at
the others only the first does anything. -/
theorem yields_beside {f : α → ChartM ι Unit} {g : β → ChartM ι Unit} {q : α → Bool} {φ : β → α} {R : Chart ι → Chart ι → Prop}
    {xs : List α} {ys : List β}
    (hboth : ∀ y ∈ ys, ∀ c d, R c d → ∃ c' d', Yields (f (φ y)) c () c' ∧ Yields (g y) d () d' ∧ R c' d')
    (hone : ∀ x ∈ xs, q x = false → ∀ c d, R c d → ∃ c', Yields (f x) c () c' ∧ R c' d)
    (h : xs.filter q = ys.map φ) {c d : Chart ι} (hcd : R c d) :
    ∃ c' d', Yields (xs.forM f) c () c' ∧ Yields (ys.forM g) d () d' ∧ R c' d' := by
  induction xs generalizing ys c d with
  | nil =>
    obtain rfl := List.map_eq_nil_iff.1 h.symm
    exact ⟨c, d, yields_pure () c, yields_pure () d, hcd⟩
  | cons x xs ih =>
    have hone' : ∀ z ∈ xs, q z = false → ∀ c d, R c d → ∃ c', Yields (f z) c () c' ∧ R c' d := fun z hz =>
      hone z (List.mem_cons_of_mem x hz)
    cases hq : q x with
    | true =>
      rw [List.filter_cons_of_pos hq] at h
      obtain ⟨y, ys, rfl, rfl, hrest⟩ := List.map_eq_cons_iff.1 h.symm
      obtain ⟨c', d', hf, hg, hcd'⟩ := hboth y (List.mem_cons_self ..) c d hcd
      obtain ⟨c'', d'', hfs, hgs, hcd''⟩ := ih (fun z hz => hboth z (List.mem_cons_of_mem y hz)) hone' hrest.symm hcd'
      exact ⟨c'', d'', hf.bind hfs, hg.bind hgs, hcd''⟩
    | false =>
      rw [List.filter_cons_of_neg (by simp [hq])] at h
      obtain ⟨c', hf, hcd'⟩ := hone x (List.mem_cons_self ..) hq c d hcd
      obtain ⟨c'', d'', hfs, hgs, hcd''⟩ := ih hboth hone' h hcd'
      exact ⟨c'', d'', hf.bind hfs, hgs, hcd''⟩

/-! ## Faults -/

theorem outcome_ask_error {question : Chart ι → Except Fault α} {cause : Fault} (h : question c = .error cause) :
    Outcome (ask question) c (.error (.fault cause)) c := by
  have hask : Outcome (ofExcept (question c)) c (.error (.fault cause)) c := by
    rw [h]
    exact outcome_throw _ c
  exact (yields_chart c).bind_outcome hask

theorem outcome_list_error {question : Chart ι → Except Fault (List α)} {event : Nat → Event} {cause : Fault}
    (h : question c = .error cause) : Outcome (list question event) c (.error (.fault cause)) c :=
  (outcome_ask_error h).bind_error _

/-! ## Work on fuel -/

/-- On the chart `c`, whatever the log, the fuel of the work runs out. -/
def RunsOut {α : Type} (work : ChartM ι α) (c : Chart ι) : Prop :=
  ∀ s : Logged ι, s.chart = c → (work.run.run s).1 = .error .unfinished

theorem RunsOut.bind {work : ChartM ι α} (h : RunsOut work c) (next : α → ChartM ι β) : RunsOut (work >>= next) c := by
  intro s hs
  have hrun := h s hs
  rw [ExceptT.run_bind, StateT.run_bind]
  generalize work.run.run s = result at hrun
  obtain ⟨answer, s'⟩ := result
  cases hrun
  rfl

theorem Yields.bind_runsOut {work : ChartM ι α} {next : α → ChartM ι β} {a : α} (h : Yields work c a c')
    (h' : RunsOut (next a) c') : RunsOut (work >>= next) c := by
  intro s hs
  obtain ⟨s', hs', hrun⟩ := h.run_bind hs next
  rw [hrun]
  exact h' s' hs'

theorem RunsOut.onEmpty {work : ChartM ι α} {n : Nat} (h : RunsOut work (.empty n)) (source : String) :
    (ChartM.onEmpty n source work).1 = .error .unfinished := by
  have hwork : RunsOut (tell (.chart n) >>= fun _ => work) (.empty n) := (yields_tell _ _).bind_runsOut h
  exact hwork _ rfl

/-- With enough fuel the work answers `a` and leaves `c'`, however much fuel is left over. -/
def Ends {α : Type} (work : Nat → ChartM ι α) (c : Chart ι) (a : α) (c' : Chart ι) : Prop :=
  ∃ enough, ∀ fuel, enough ≤ fuel → Yields (work fuel) c a c'

theorem Yields.ends {work : ChartM ι α} {a : α} (h : Yields work c a c') : Ends (fun _ => work) c a c' :=
  ⟨0, fun _ _ => h⟩

theorem Ends.bind {work : Nat → ChartM ι α} {next : Nat → α → ChartM ι β} {a : α} {b : β} (h : Ends work c a c')
    (h' : Ends (next · a) c' b c'') : Ends (fun fuel => work fuel >>= next fuel) c b c'' := by
  obtain ⟨n, hn⟩ := h
  obtain ⟨m, hm⟩ := h'
  exact ⟨max n m, fun fuel hf => (hn fuel (by omega)).bind (hm fuel (by omega))⟩

theorem Yields.onEmpty {work : ChartM ι α} {n : Nat} {a : α} (h : Yields work (.empty n) a c) (source : String) :
    ∃ s, onEmpty n source work = (.ok a, s) ∧ s.chart = c := by
  have hwork : Yields (tell (.chart n) >>= fun _ => work) (.empty n) a c := (yields_tell _ _).bind h
  exact hwork _ rfl

theorem Yields.answers {work : ChartM ι α} {n : Nat} {a : α} (h : Yields work (.empty n) a c) (source : String) :
    (ChartM.onEmpty n source work).1 = .ok a := by
  obtain ⟨s, hs, -⟩ := h.onEmpty source
  rw [hs]

/-- With enough fuel the computation answers `a`. -/
def Answers {α : Type} (run : Nat → Except Halt α × Logged ι) (a : α) : Prop :=
  ∃ enough, ∀ fuel, enough ≤ fuel → (run fuel).1 = .ok a

theorem Ends.answers {work : Nat → ChartM ι α} {n : Nat} {a : α} (h : Ends work (.empty n) a c) (source : String) :
    Answers (fun fuel => ChartM.onEmpty n source (work fuel)) a := by
  obtain ⟨enough, h⟩ := h
  exact ⟨enough, fun fuel hf => (h fuel hf).answers source⟩

/-! ## The operations of a chart -/

variable [ChartItem ι]

theorem run_insert (x : ι) (s : Logged ι) : (insert x).run.run s =
    match s.chart.insert x with
    | .error cause => (.error (.fault cause), s)
    | .ok made => (.ok made.isNew,
      ⟨made.chart, s.source, ⟨s.source, if made.isNew then .added made.place.start made.place.stop else .duplicate⟩ ::
        ⟨s.source, .insertion made.place.id⟩ :: s.records⟩) := by
  have hask : (ask (·.insert x)).run.run s =
      match s.chart.insert x with
      | .error cause => (.error (.fault cause), s)
      | .ok made => (.ok made, s) := by
    show (ofExcept (s.chart.insert x)).run.run s = _
    cases s.chart.insert x <;> rfl
  unfold insert
  rw [ExceptT.run_bind, StateT.run_bind, hask]
  cases s.chart.insert x <;> rfl

theorem yields_insert {x : ι} {p : Place} (h : c.place x = .ok p) : Yields (insert x) c (c.adds x) (c.put x) := by
  rintro s rfl
  exact ⟨_, by rw [run_insert, Chart.insert_eq_ok h], rfl⟩

theorem yields_contains {x : ι} {p : Place} (h : c.place x = .ok p) : Yields (contains x) c (c.holds p x) c := by
  have hplace : Yields (ask (·.place x)) c p c := yields_ask h
  have hfound : Yields (ask (·.contains x)) c (c.holds p x) c := yields_ask (by rw [Chart.contains, h]; rfl)
  exact hplace.bind (hfound.bind ((yields_tell _ c).bind (yields_pure _ c)))

/-- Items that all have a place are offered without a fault. -/
theorem yields_offer {xs : List ι} (h : ∀ x ∈ xs, ∃ p, c.place x = .ok p) :
    Yields (offer (xs.map .ok)) c (c.newOf xs) (c.putAll xs) := by
  induction xs generalizing c with
  | nil => exact yields_pure _ c
  | cons x xs ih =>
    obtain ⟨p, hp⟩ := h x (by simp)
    have hrest := ih (c := c.put x) fun y hy => by
      rw [Chart.place_congr (Chart.length_put c x)]
      exact h y (by simp [hy])
    refine (yields_ofExcept rfl c).bind ((yields_insert hp).bind (hrest.bind ?_))
    rw [Chart.newOf]
    exact yields_pure _ _

theorem yields_whole (c : Chart ι) : ∃ items, Yields (itemsSpanning (.int 0) (.int c.length)) c items c :=
  ⟨_, yields_list (Chart.itemsSpanning_int (i := 0) (Nat.zero_le _) (Nat.le_refl _))⟩

theorem yields_fullParseItems {symbol : String} {items : List ι} (h : c.fullParseItems symbol = .ok items) :
    Yields (fullParseItems symbol) c items c := by
  obtain ⟨_, hw⟩ := yields_whole c
  exact (yields_chart c).bind (hw.bind (yields_list h))

theorem yields_accepted {symbol : String} {items : List ι} (h : c.fullParseItems symbol = .ok items) :
    Yields (do return !(← fullParseItems symbol).isEmpty) c (!items.isEmpty) c :=
  (yields_fullParseItems h).bind (yields_pure _ c)

theorem yields_parseTrees {symbol : String} {kind : Kind} {trees : List Tree}
    (h : c.parseTrees symbol kind = .ok trees) : Yields (parseTrees symbol kind) c trees c := by
  obtain ⟨_, hw⟩ := yields_whole c
  exact (yields_chart c).bind (hw.bind (yields_list h))

theorem outcome_insert_error {x : ι} {cause : Fault} (h : c.place x = .error cause) :
    Outcome (insert x) c (.error (.fault cause)) c :=
  (outcome_ask_error (by rw [Chart.insert, h]; rfl)).bind_error _

end ParseChart.ChartM
