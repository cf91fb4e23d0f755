import ParseChart.Proofs.Chart.Work
/-!
# Insertions in a log

An insertion makes two records, of the id of its item and of its answer. `Inserting` says of a computation which
items it offers the chart and whether they are new, as its records tell, and composes along `>>=` as `Yields` does.
-/

namespace ParseChart

open ChartItem

variable {ι : Type}

/-- An item that was offered to a chart, and whether it was new. -/
structure Attempt (ι : Type) where
  item : ι
  isNew : Bool

/-- The id of an item that is about to be inserted. -/
def Event.inserted? : Event → Option Value
  | .insertion id => some id
  | _ => none

/-- What an insertion answers. -/
def Event.answer? : Event → Option Bool
  | .added .. => some true
  | .duplicate => some false
  | _ => none

variable [ChartItem ι]

/-- The insertions that the records, newest first, tell of are these. -/
structure Tells (records : List Record) (made : List (Attempt ι)) : Prop where
  ids : (records.reverse.filterMap (·.event.inserted?)).map some = made.map fun o => id? o.item
  answers : records.reverse.filterMap (·.event.answer?) = made.map (·.isNew)

theorem tells_nil : Tells [] ([] : List (Attempt ι)) := ⟨rfl, rfl⟩

theorem Tells.append {records later : List Record} {made more : List (Attempt ι)} (h : Tells records made)
    (h' : Tells later more) : Tells (later ++ records) (made ++ more) where
  ids := by rw [List.reverse_append, List.filterMap_append, List.map_append, h.ids, h'.ids, List.map_append]
  answers := by rw [List.reverse_append, List.filterMap_append, h.answers, h'.answers, List.map_append]

theorem tells_other {source : String} {event : Event} (hid : event.inserted? = none) (hanswer : event.answer? = none) :
    Tells [⟨source, event⟩] ([] : List (Attempt ι)) := by
  constructor <;> simp [hid, hanswer]

namespace Chart

/-- Some items offered in turn. -/
def attempts (c : Chart ι) : List ι → List (Attempt ι)
  | [] => []
  | x :: xs => ⟨x, c.adds x⟩ :: (c.put x).attempts xs

variable {c : Chart ι} {xs : List ι}

theorem map_item_attempts (c : Chart ι) (xs : List ι) : (c.attempts xs).map (·.item) = xs := by
  induction xs generalizing c with
  | nil => rfl
  | cons x xs ih => rw [attempts, List.map_cons, ih]

theorem newOf_eq_filter_attempts (c : Chart ι) (xs : List ι) :
    c.newOf xs = ((c.attempts xs).filter (·.isNew)).map (·.item) := by
  induction xs generalizing c with
  | nil => rfl
  | cons x xs ih =>
    rw [newOf, attempts, ih]
    cases c.adds x <;> rfl

/-- If all are new, each was when its turn came. -/
theorem isNew_of_newOf (h : c.newOf xs = xs) : ∀ o ∈ c.attempts xs, o.isNew = true := by
  apply List.length_filter_eq_length_iff.1
  have hnew := congrArg List.length (c.newOf_eq_filter_attempts xs)
  have hall := congrArg List.length (c.map_item_attempts xs)
  rw [List.length_map] at hnew hall
  rw [← hnew, h, hall]

end Chart

namespace ChartM

variable {α β : Type} {c c' c'' : Chart ι} {made more : List (Attempt ι)}

/-- On the chart `c`, whatever the log was, the work answers `a`, leaves `c'`, and has made these insertions. -/
def Inserting (work : ChartM ι α) (c : Chart ι) (a : α) (made : List (Attempt ι)) (c' : Chart ι) : Prop :=
  ∀ s : Logged ι, s.chart = c → ∃ s' told, work.run.run s = (.ok a, s') ∧ s'.chart = c' ∧
    s'.records = told ++ s.records ∧ Tells told made

theorem Inserting.yields {work : ChartM ι α} {a : α} (h : Inserting work c a made c') : Yields work c a c' := by
  intro s hs
  obtain ⟨s', told, hr, hc, -⟩ := h s hs
  exact ⟨s', hr, hc⟩

theorem inserting_pure (a : α) (c : Chart ι) : Inserting (pure a) c a [] c :=
  fun s hs => ⟨s, [], rfl, hs, rfl, tells_nil⟩

theorem Inserting.bind {work : ChartM ι α} {next : α → ChartM ι β} {a : α} {b : β} (h : Inserting work c a made c')
    (h' : Inserting (next a) c' b more c'') : Inserting (work >>= next) c b (made ++ more) c'' := by
  intro s hs
  obtain ⟨s', told, hr, hs', hrecords, htells⟩ := h s hs
  obtain ⟨s'', later, hr', hs'', hrecords', htells'⟩ := h' s' hs'
  refine ⟨s'', later ++ told, ?_, hs'', by rw [hrecords', hrecords, List.append_assoc], htells.append htells'⟩
  rw [ExceptT.run_bind, StateT.run_bind, hr]
  exact hr'

/-- After the last insertion comes work that inserts nothing. -/
theorem Inserting.bind_nil {work : ChartM ι α} {next : α → ChartM ι β} {a : α} {b : β} (h : Inserting work c a made c')
    (h' : Inserting (next a) c' b [] c'') : Inserting (work >>= next) c b made c'' :=
  List.append_nil made ▸ h.bind h'

theorem inserting_tellAs (source : String) {event : Event} (hid : event.inserted? = none)
    (hanswer : event.answer? = none) (c : Chart ι) : Inserting (tellAs source event) c () [] c :=
  fun _ hs => ⟨_, [_], rfl, hs, rfl, tells_other hid hanswer⟩

theorem inserting_tell {event : Event} (hid : event.inserted? = none) (hanswer : event.answer? = none) (c : Chart ι) :
    Inserting (tell event) c () [] c :=
  fun _ hs => ⟨_, [_], rfl, hs, rfl, tells_other hid hanswer⟩

theorem inserting_chart (c : Chart ι) : Inserting chart c c [] c := fun s hs => ⟨s, [], hs ▸ rfl, hs, rfl, tells_nil⟩

theorem inserting_ofExcept {answer : Except Fault α} {a : α} (h : answer = .ok a) (c : Chart ι) :
    Inserting (ofExcept answer) c a [] c := h ▸ inserting_pure a c

theorem inserting_ask {question : Chart ι → Except Fault α} {a : α} (h : question c = .ok a) :
    Inserting (ask question) c a [] c :=
  (inserting_chart c).bind (inserting_ofExcept h c)

theorem inserting_list {question : Chart ι → Except Fault (List α)} {event : Nat → Event} {answers : List α}
    (h : question c = .ok answers) (hid : ∀ n, (event n).inserted? = none) (hanswer : ∀ n, (event n).answer? = none) :
    Inserting (list question event) c answers [] c :=
  (inserting_ask h).bind ((inserting_tell (hid _) (hanswer _) c).bind (inserting_pure _ c))

theorem inserting_insert {x : ι} {p : Place} (h : c.place x = .ok p) :
    Inserting (insert x) c (c.adds x) [⟨x, c.adds x⟩] (c.put x) := by
  rintro s rfl
  obtain ⟨hid, -⟩ := Chart.place_eq_ok h
  refine ⟨_, [_, _], by rw [run_insert, Chart.insert_eq_ok h], rfl, rfl, ?_, ?_⟩
  · cases s.chart.adds x <;> simp [Event.inserted?, hid]
  · cases s.chart.adds x <;> simp [Event.answer?]

/-- Items that all have a place are offered without a fault. -/
theorem inserting_offer {xs : List ι} (h : ∀ x ∈ xs, ∃ p, c.place x = .ok p) :
    Inserting (offer (xs.map .ok)) c (c.newOf xs) (c.attempts xs) (c.putAll xs) := by
  induction xs generalizing c with
  | nil => exact inserting_pure _ c
  | cons x xs ih =>
    obtain ⟨p, hp⟩ := h x (by simp)
    have hrest := ih (c := c.put x) fun y hy => by
      rw [Chart.place_congr (Chart.length_put c x)]
      exact h y (by simp [hy])
    refine (inserting_ofExcept rfl c).bind ((inserting_insert hp).bind (hrest.bind_nil ?_))
    rw [Chart.newOf]
    exact inserting_pure _ _

theorem inserting_itemsTo {j : Nat} (hj : j ≤ c.length) : Inserting (itemsTo (.int j)) c (c.rowTo j).elems [] c :=
  inserting_list (Chart.itemsTo_int hj) (fun _ => rfl) fun _ => rfl

theorem inserting_completeItemsSpanning {i j : Nat} {items : List ι} (hij : i ≤ j) (hj : j ≤ c.length)
    (h : c.completeItemsSpanning (.int i) (.int j) = .ok items) :
    Inserting (completeItemsSpanning (.int i) (.int j)) c items [] c :=
  (inserting_list (Chart.itemsSpanning_int hij hj) (fun _ => rfl) fun _ => rfl).bind (inserting_ask h)

theorem Inserting.onEmpty {work : ChartM ι α} {n : Nat} {a : α} (h : Inserting work (.empty n) a made c) (source : String) :
    ∃ s, ChartM.onEmpty n source work = (.ok a, s) ∧ s.chart = c ∧ Tells s.records made := by
  have hwork : Inserting (tell (.chart n) >>= fun _ => work) (.empty n) a made c := (inserting_tell rfl rfl _).bind h
  obtain ⟨s, told, hrun, hc, hrecords, htells⟩ := hwork ⟨.empty n, source, []⟩ rfl
  rw [List.append_nil] at hrecords
  exact ⟨s, hrun, hc, hrecords ▸ htells⟩

/-! ## Nothing but new items -/

/-- On the chart `c`, whatever the log was, the work answers `a` and leaves `c'`, and all its insertions answer true. -/
def InsertingNew (work : ChartM ι α) (c : Chart ι) (a : α) (c' : Chart ι) : Prop :=
  ∃ made, Inserting work c a made c' ∧ ∀ o ∈ made, o.isNew = true

theorem InsertingNew.yields {work : ChartM ι α} {a : α} (h : InsertingNew work c a c') : Yields work c a c' := by
  obtain ⟨made, hwork, -⟩ := h
  exact hwork.yields

theorem Inserting.new {work : ChartM ι α} {a : α} (h : Inserting work c a [] c') : InsertingNew work c a c' :=
  ⟨[], h, by simp⟩

theorem InsertingNew.bind {work : ChartM ι α} {next : α → ChartM ι β} {a : α} {b : β} (h : InsertingNew work c a c')
    (h' : InsertingNew (next a) c' b c'') : InsertingNew (work >>= next) c b c'' := by
  obtain ⟨made, hwork, hnew⟩ := h
  obtain ⟨more, hwork', hnew'⟩ := h'
  exact ⟨made ++ more, hwork.bind hwork', List.forall_mem_append.2 ⟨hnew, hnew'⟩⟩

theorem insertingNew_offer {xs : List ι} (h : ∀ x ∈ xs, ∃ p, c.place x = .ok p) (hnew : c.newOf xs = xs) :
    InsertingNew (offer (xs.map .ok)) c xs (c.putAll xs) := by
  have hoffer := inserting_offer h
  rw [hnew] at hoffer
  exact ⟨_, hoffer, Chart.isNew_of_newOf hnew⟩

theorem insertingNew_forM (body : α → ChartM ι Unit) (xs : List α) (Inv : List α → Chart ι → Prop)
    (hstep : ∀ done x rest c, xs = done ++ x :: rest → Inv done c →
      ∃ c', InsertingNew (body x) c () c' ∧ Inv (done ++ [x]) c')
    (h : Inv [] c) : ∃ c', InsertingNew (xs.forM body) c () c' ∧ Inv xs c' :=
  forM_rule (R := fun work c c' => InsertingNew work c () c') (fun c => (inserting_pure () c).new) (fun h h' => h.bind h')
    body xs Inv hstep h

end ChartM

end ParseChart
