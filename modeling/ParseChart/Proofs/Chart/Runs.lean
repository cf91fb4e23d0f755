import ParseChart.Cyk
import ParseChart.Earley
import ParseChart.Proofs.Chart.Growth
import ParseChart.Proofs.Chart.Work
/-!
# Runs of operations on a chart

A chart is changed by insertions alone: `Inserts` says of a computation that all it does to the chart is
to offer it items, and holds of each operation of a chart and of each step that a parser takes on it,
whether it ends with an answer or with a fault. So a chart is sound at every moment of a run, and has
grown from what it was at every moment before.
-/

namespace ParseChart

variable {ι : Type}

/-- The record of an insertion that answered true. -/
def Event.isAddition : Event → Bool
  | .added .. => true
  | _ => false

/-- How many insertions have answered true. -/
def Logged.additions (s : Logged ι) : Nat := s.records.countP (·.event.isAddition)

namespace ChartM

variable [ChartItem ι] {α β : Type}

/-! ## Work that inserts -/

/-- Whatever comes of it, all that the work does to the chart is to offer it items in turn, and what is added is
recorded. -/
def Inserts (work : ChartM ι α) : Prop :=
  ∀ s, ∃ xs, (work.run.run s).2.chart = s.chart.putAll xs ∧
    (work.run.run s).2.additions = s.additions + (s.chart.newOf xs).length

theorem inserts_of_same {work : ChartM ι α}
    (h : ∀ s, (work.run.run s).2.chart = s.chart ∧ (work.run.run s).2.additions = s.additions) : Inserts work :=
  fun s => ⟨[], h s⟩

theorem inserts_pure (a : α) : Inserts (pure a : ChartM ι α) := inserts_of_same fun _ => ⟨rfl, rfl⟩

theorem inserts_throw (halt : Halt) : Inserts (throw halt : ChartM ι α) := inserts_of_same fun _ => ⟨rfl, rfl⟩

theorem inserts_ofExcept (answer : Except Fault α) : Inserts (ofExcept answer : ChartM ι α) := by
  cases answer with
  | error cause => exact inserts_throw _
  | ok a => exact inserts_pure a

theorem Inserts.bind {work : ChartM ι α} {next : α → ChartM ι β} (h : Inserts work) (h' : ∀ a, Inserts (next a)) :
    Inserts (work >>= next) := by
  intro s
  obtain ⟨xs, hc, ha⟩ := h s
  rw [ExceptT.run_bind, StateT.run_bind]
  generalize work.run.run s = result at hc ha
  obtain ⟨answer, s'⟩ := result
  cases answer with
  | error halt => exact ⟨xs, hc, ha⟩
  | ok a =>
    obtain ⟨ys, hc', ha'⟩ := h' a s'
    refine ⟨xs ++ ys, ?_, ?_⟩
    · rw [Chart.putAll_append, ← hc]
      exact hc'
    · rw [Chart.newOf_append, List.length_append, ← Nat.add_assoc, ← ha, ← hc]
      exact ha'

theorem inserts_get : Inserts (get : ChartM ι (Logged ι)) := inserts_of_same fun _ => ⟨rfl, rfl⟩

theorem inserts_tellAs (source : String) {event : Event} (h : event.isAddition = false) :
    Inserts (tellAs source event : ChartM ι Unit) :=
  inserts_of_same fun s => ⟨rfl, List.countP_cons_of_neg (by simp [h])⟩

theorem inserts_tell {event : Event} (h : event.isAddition = false) : Inserts (tell event : ChartM ι Unit) :=
  inserts_get.bind fun _ => inserts_tellAs _ h

theorem inserts_chart : Inserts (chart : ChartM ι (Chart ι)) := inserts_get.bind fun _ => inserts_pure _

theorem inserts_ask (question : Chart ι → Except Fault α) : Inserts (ask question) :=
  inserts_chart.bind fun _ => inserts_ofExcept _

theorem inserts_list (question : Chart ι → Except Fault (List α)) {event : Nat → Event}
    (h : ∀ n, (event n).isAddition = false) : Inserts (list question event) :=
  (inserts_ask question).bind fun _ => (inserts_tell (h _)).bind fun _ => inserts_pure _

/-- An insertion records that it added the item if, and only if, it answers true. -/
theorem insert_outcome (x : ι) (s : Logged ι) : ((insert x).run.run s).2.chart = s.chart.put x ∧
    ((insert x).run.run s).2.additions = s.additions + (s.chart.adds x).toNat ∧
    (((insert x).run.run s).1 matches .ok true) = s.chart.adds x := by
  rw [run_insert, Chart.put, Chart.adds]
  cases s.chart.insert x with
  | error cause => exact ⟨rfl, rfl, rfl⟩
  | ok made =>
    obtain ⟨p, isNew, c⟩ := made
    cases isNew <;> simp [Logged.additions, Event.isAddition]

theorem inserts_insert (x : ι) : Inserts (insert x) := by
  intro s
  obtain ⟨hc, ha, -⟩ := insert_outcome x s
  refine ⟨[x], hc, ?_⟩
  rw [ha, Chart.newOf]
  cases s.chart.adds x <;> rfl

theorem inserts_offer (xs : List (Except Fault ι)) : Inserts (offer xs) := by
  induction xs with
  | nil => exact inserts_pure _
  | cons x xs ih =>
    exact (inserts_ofExcept x).bind fun x => (inserts_insert x).bind fun _ => ih.bind fun _ => inserts_pure _

/-! ## Queries -/

theorem inserts_contains (x : ι) : Inserts (contains x) :=
  (inserts_ask _).bind fun _ => (inserts_ask _).bind fun _ => (inserts_tell rfl).bind fun _ => inserts_pure _

theorem inserts_itemsSpanning (start stop : Value) : Inserts (itemsSpanning start stop : ChartM ι (List ι)) :=
  inserts_list _ fun _ => rfl

theorem inserts_itemsFrom (start : Value) : Inserts (itemsFrom start : ChartM ι (List ι)) := inserts_list _ fun _ => rfl

theorem inserts_itemsTo (stop : Value) : Inserts (itemsTo stop : ChartM ι (List ι)) := inserts_list _ fun _ => rfl

theorem inserts_completeItemsSpanning (start stop : Value) : Inserts (completeItemsSpanning start stop : ChartM ι (List ι)) :=
  (inserts_itemsSpanning start stop).bind fun _ => inserts_ask _

theorem inserts_fullParseItems (symbol : String) : Inserts (fullParseItems symbol : ChartM ι (List ι)) :=
  inserts_chart.bind fun _ => (inserts_itemsSpanning _ _).bind fun _ => inserts_list _ fun _ => rfl

theorem inserts_parseTrees (symbol : String) (kind : Kind) : Inserts (parseTrees symbol kind : ChartM ι (List Tree)) :=
  inserts_chart.bind fun _ => (inserts_itemsSpanning _ _).bind fun _ => inserts_list _ fun _ => rfl

/-! ## Steps of parsers -/

theorem inserts_treat (p : Earley) (tokens : List String) (k : Int) (x : Item) : Inserts (p.treat tokens k x) := by
  cases x with
  | earley rule dot span children =>
    refine (inserts_ofExcept _).bind fun next => ?_
    cases next with
    | none => exact (inserts_itemsTo _).bind fun _ => inserts_offer _
    | some a =>
      dsimp only
      split
      · exact inserts_offer _
      · split
        · exact (inserts_offer _).bind fun _ => inserts_pure _
        · exact inserts_pure _
  | _ => exact inserts_throw _

theorem inserts_drain (p : Earley) (tokens : List String) (k : Int) (fuel : Nat) (queue : List Item) :
    Inserts (p.drain tokens k fuel queue) := by
  induction fuel generalizing queue with
  | zero =>
    cases queue with
    | nil => exact inserts_pure _
    | cons x rest => exact inserts_throw _
  | succ fuel ih =>
    cases queue with
    | nil => exact inserts_pure _
    | cons x rest => exact (inserts_treat p tokens k x).bind fun _ => ih _

theorem inserts_closure (p : Earley) (fuel : Nat) (tokens : List String) (k : Int) :
    Inserts (p.closure fuel tokens k) :=
  (inserts_itemsTo _).bind fun _ => inserts_drain p tokens k fuel _

theorem inserts_constituents (i j : Int) : Inserts (Cyk.constituents i j) :=
  (inserts_completeItemsSpanning _ _).bind fun _ => inserts_ofExcept _

theorem inserts_combine (p : Cyk) (i m j : Int) : Inserts (p.combine i m j) :=
  (inserts_constituents i m).bind fun _ => (inserts_constituents m j).bind fun _ =>
    (inserts_offer _).bind fun _ => inserts_pure _

end ChartM

/-! ## Runs -/

/-- What a parser does on a chart, which is one of parsers' items. A closure may take up any number of items, so one
without end is seen at each of its moments. -/
inductive ParserStep : (ι : Type) → [ChartItem ι] → Type
  | closure (p : Earley) (fuel : Nat) (tokens : List String) (k : Int) : ParserStep Item
  | combine (p : Cyk) (i m j : Int) : ParserStep Item

/-- One use of a chart: an operation of its own, or a step that a parser takes on it. -/
inductive Operation (ι : Type) [ChartItem ι]
  | insert (x : ι)
  | contains (x : ι)
  | itemsSpanning (start stop : Value)
  | itemsFrom (start : Value)
  | itemsTo (stop : Value)
  | countTo (stop : Value)
  | completeItemsSpanning (start stop : Value)
  | fullParseItems (symbol : String)
  | parseTrees (symbol : String) (kind : Kind)
  | itemCount
  | step (s : ParserStep ι)

variable [ChartItem ι]

def ParserStep.work : ParserStep ι → ChartM ι Unit
  | .closure p fuel tokens k => p.closure fuel tokens k
  | .combine p i m j => p.combine i m j

theorem ParserStep.inserts_work (s : ParserStep ι) : ChartM.Inserts s.work := by
  cases s with
  | closure p fuel tokens k => exact ChartM.inserts_closure p fuel tokens k
  | combine p i m j => exact ChartM.inserts_combine p i m j

namespace Operation

/-- An operation without its answer. -/
def work : Operation ι → ChartM ι Unit
  | .insert x => do let _ ← ChartM.insert x
  | .contains x => do let _ ← ChartM.contains x
  | .itemsSpanning start stop => do let _ ← ChartM.itemsSpanning start stop
  | .itemsFrom start => do let _ ← ChartM.itemsFrom start
  | .itemsTo stop => do let _ ← ChartM.itemsTo stop
  | .countTo stop => do let _ ← ChartM.ask (·.countTo stop)
  | .completeItemsSpanning start stop => do let _ ← ChartM.completeItemsSpanning start stop
  | .fullParseItems symbol => do let _ ← ChartM.fullParseItems symbol
  | .parseTrees symbol kind => do let _ ← ChartM.parseTrees symbol kind
  | .itemCount => do let _ ← ChartM.ask fun c => .ok c.itemCount
  | .step s => s.work

/-- What an operation leaves, whether it answers or ends with a fault. -/
def perform (s : Logged ι) (op : Operation ι) : Logged ι := (op.work.run.run s).2

/-- What is left of a new chart by a run. -/
def run (n : Nat) (source : String) (ops : List (Operation ι)) : Logged ι :=
  ops.foldl perform (ChartM.onEmpty n source (pure ())).2

open ChartM in
theorem inserts_work (op : Operation ι) : Inserts op.work := by
  have void {α : Type} {work : ChartM ι α} (h : Inserts work) : Inserts (do let _ ← work) := h.bind fun _ => inserts_pure _
  cases op with
  | insert x => exact void (inserts_insert x)
  | contains x => exact void (inserts_contains x)
  | itemsSpanning start stop => exact void (inserts_itemsSpanning start stop)
  | itemsFrom start => exact void (inserts_itemsFrom start)
  | itemsTo stop => exact void (inserts_itemsTo stop)
  | countTo stop => exact void (inserts_ask _)
  | completeItemsSpanning start stop => exact void (inserts_completeItemsSpanning start stop)
  | fullParseItems symbol => exact void (inserts_fullParseItems symbol)
  | parseTrees symbol kind => exact void (inserts_parseTrees symbol kind)
  | itemCount => exact void (inserts_ask _)
  | step s => exact s.inserts_work

/-- Operations do to the chart what some insertions do, one after another. -/
theorem exists_putAll (s : Logged ι) (ops : List (Operation ι)) :
    ∃ xs, (ops.foldl perform s).chart = s.chart.putAll xs ∧
      (ops.foldl perform s).additions = s.additions + (s.chart.newOf xs).length := by
  induction ops generalizing s with
  | nil => exact ⟨[], rfl, rfl⟩
  | cons op ops ih =>
    obtain ⟨xs, hc, ha⟩ := inserts_work op s
    obtain ⟨ys, hc', ha'⟩ := ih (perform s op)
    refine ⟨xs ++ ys, ?_, ?_⟩
    · rw [Chart.putAll_append, ← hc]
      exact hc'
    · rw [Chart.newOf_append, List.length_append, ← Nat.add_assoc, ← ha, ← hc]
      exact ha'

theorem perform_insert (s : Logged ι) (x : ι) : perform s (.insert x) = ((ChartM.insert x).run.run s).2 := by
  unfold perform work
  rw [ExceptT.run_bind, StateT.run_bind]
  generalize (ChartM.insert x).run.run s = result
  obtain ⟨answer, s'⟩ := result
  cases answer <;> rfl

theorem performAll_inserts (s : Logged ι) (xs : List ι) :
    ((xs.map Operation.insert).foldl perform s).chart = s.chart.putAll xs ∧
      ((xs.map Operation.insert).foldl perform s).additions = s.additions + (s.chart.newOf xs).length := by
  induction xs generalizing s with
  | nil => exact ⟨rfl, rfl⟩
  | cons x xs ih =>
    obtain ⟨hc, ha, -⟩ := ChartM.insert_outcome x s
    rw [← perform_insert] at hc ha
    obtain ⟨hc', ha'⟩ := ih (perform s (.insert x))
    rw [hc] at hc' ha'
    rw [ha] at ha'
    exact ⟨hc', ha'.trans (by rw [Chart.length_newOf_cons, Nat.add_assoc])⟩

theorem run_eq_putAll (n : Nat) (source : String) (ops : List (Operation ι)) :
    ∃ xs, (run n source ops).chart = (Chart.empty n).putAll xs ∧
      (run n source ops).additions = ((Chart.empty n).newOf xs).length := by
  obtain ⟨xs, hc, ha⟩ := exists_putAll (ChartM.onEmpty n source (pure ())).2 ops
  exact ⟨xs, hc, ha.trans (Nat.zero_add _)⟩

theorem length_run (n : Nat) (source : String) (ops : List (Operation ι)) : (run n source ops).chart.length = n := by
  obtain ⟨xs, hc, -⟩ := run_eq_putAll n source ops
  rw [hc, Chart.length_putAll]
  rfl

/-- At each moment of a run the chart is sound and has as many items as insertions have answered true. Whatever more is
done, it grows from there, and unless another insertion answers true it stays what it is. An operation does no more to
it than some insertions would, so that the moments within an operation are those of such a run. -/
theorem run_keeps_sound (n : Nat) (source : String) (ops : List (Operation ι)) :
    (run n source ops).chart.length = n ∧ (run n source ops).chart.Sound ∧
      (run n source ops).chart.itemCount = (run n source ops).additions ∧
      (∀ x, (run n source (ops ++ [.insert x])).additions = (run n source ops).additions +
        if ((ChartM.insert x).run.run (run n source ops)).1 matches .ok true then 1 else 0) ∧
      (∀ more, (run n source ops).chart.GrowsTo (run n source (ops ++ more)).chart ∧
        ((run n source (ops ++ more)).additions = (run n source ops).additions →
          (run n source (ops ++ more)).chart = (run n source ops).chart)) ∧
      ∀ op, ∃ xs : List ι,
        (run n source (ops ++ [op])).chart = (run n source (ops ++ xs.map .insert)).chart ∧
          (run n source (ops ++ [op])).additions = (run n source (ops ++ xs.map .insert)).additions := by
  have happend : ∀ more, run n source (ops ++ more) = more.foldl perform (run n source ops) := fun _ => List.foldl_append
  obtain ⟨xs, hc, ha⟩ := run_eq_putAll n source ops
  obtain ⟨hsound, hcount⟩ := Chart.sound_putAll n xs
  refine ⟨?_, hc ▸ hsound, ?_, fun x => ?_, fun more => ?_, fun op => ?_⟩
  · rw [hc, Chart.length_putAll]
    rfl
  · rw [hc, ha, hcount]
  · obtain ⟨-, hadd, hanswer⟩ := ChartM.insert_outcome x (run n source ops)
    rw [happend, List.foldl_cons, List.foldl_nil, perform_insert, hadd, hanswer]
    cases (run n source ops).chart.adds x <;> rfl
  · obtain ⟨ys, hc', ha'⟩ := exists_putAll (run n source ops) more
    rw [happend]
    constructor
    · rw [hc']
      exact (hc ▸ (Chart.filed_empty n).putAll xs : (run n source ops).chart.Filed).growsTo_putAll ys
    · intro hsame
      rw [hc', Chart.putAll_of_newOf_nil (List.eq_nil_of_length_eq_zero (by omega))]
  · obtain ⟨ys, hc', ha'⟩ := exists_putAll (run n source ops) [op]
    obtain ⟨hc'', ha''⟩ := performAll_inserts (run n source ops) ys
    refine ⟨ys, ?_, ?_⟩
    · rw [happend, happend, hc', hc'']
    · rw [happend, happend, ha', ha'']

end Operation

end ParseChart
