import ParseChart.Proofs.Chart.Growth
import ParseChart.Proofs.Chart.Kinds
import ParseChart.Proofs.Earley.Contents
/-!
# Closures on a shared chart

On a chart with constituents beside the dotted rules, the loop of a closure does what it does on the
dotted rules alone: a constituent is no parent, and what is predicted, scanned or advanced is not found
among constituents. `Alike` says this of a piece of work, and is kept along `>>=`. Only the queue, as it is
first filled, makes no difference of kinds, so a constituent that stops at the position is a fault.
-/

namespace ParseChart.Earley

open ChartM

variable {α β : Type} {p : Earley} {w : List String} {c : Chart Item} {good : α → Prop} {good' : β → Prop} {x y : Item}

/-! ## Work that leaves constituents aside -/

/-- The work on a chart and the work on its dotted rules alone come to the same end, a good answer if there is one,
and offer the same dotted rules in the same order. -/
def Alike (c : Chart Item) (good : α → Prop) (work work' : ChartM Item α) : Prop :=
  ∃ answer ys, (∀ y ∈ ys, y.isOf .earley = true) ∧ (∀ a, answer = .ok a → good a) ∧
    Outcome work c answer (c.putAll ys) ∧ Outcome work' (c.only .earley) answer ((c.only .earley).putAll ys)

/-- The part of the dotted rules takes up what is offered of that kind. -/
theorem only_putAll_earley (hc : c.Mixed) {ys : List Item} (hys : ∀ y ∈ ys, y.isOf .earley = true) :
    (c.putAll ys).Mixed ∧ (c.putAll ys).only .earley = (c.only .earley).putAll ys ∧
      c.newOf ys = (c.only .earley).newOf ys := by
  have hkinds : ∀ y ∈ ys, y.kind?.isSome = true := fun y hy => Item.kind_isSome (hys y hy)
  obtain ⟨hall, hnew⟩ := hc.only_putAll hkinds .earley
  rw [List.filter_eq_self.2 hys] at hall hnew
  rw [List.filter_eq_self.2 fun y hy => hys y (Chart.newOf_subset hy)] at hnew
  exact ⟨hc.putAll hkinds, hall, hnew⟩

theorem alike_pure {a : α} (h : good a) (c : Chart Item) : Alike c good (pure a) (pure a) :=
  ⟨.ok a, [], by simp, fun b hb => by cases hb; exact h, yields_pure a c, yields_pure a _⟩

theorem alike_throw (halt : Halt) (c : Chart Item) : Alike c good (throw halt) (throw halt) :=
  ⟨.error halt, [], by simp, fun a ha => (by cases ha), outcome_throw halt c, outcome_throw halt _⟩

theorem alike_ofExcept {answer : Except Fault α} (h : ∀ a, answer = .ok a → good a) (c : Chart Item) :
    Alike c good (ofExcept answer) (ofExcept answer) := by
  cases answer with
  | error cause => exact alike_throw _ c
  | ok a => exact alike_pure (h a rfl) c

theorem Alike.bind {work work' : ChartM Item α} {next next' : α → ChartM Item β} (hc : c.Mixed) (h : Alike c good work work')
    (h' : ∀ a c', good a → c'.Mixed → Alike c' good' (next a) (next' a)) :
    Alike c good' (work >>= next) (work' >>= next') := by
  obtain ⟨answer, ys, hys, hgood, hwork, hwork'⟩ := h
  cases answer with
  | error halt => exact ⟨.error halt, ys, hys, fun a ha => (by cases ha), hwork.bind_error _, hwork'.bind_error _⟩
  | ok a =>
    obtain ⟨hmixed, honly, -⟩ := only_putAll_earley hc hys
    obtain ⟨answer, zs, hzs, hgood', hnext, hnext'⟩ := h' a (c.putAll ys) (hgood a rfl) hmixed
    rw [honly] at hnext'
    refine ⟨answer, ys ++ zs, fun y hy => ?_, hgood', ?_, ?_⟩
    · exact (List.mem_append.1 hy).elim (hys y) (hzs y)
    · rw [Chart.putAll_append]
      exact Yields.bind_outcome hwork hnext
    · rw [Chart.putAll_append]
      exact Yields.bind_outcome hwork' hnext'

theorem alike_insert (hc : c.Mixed) (hx : x.isOf .earley = true) : Alike c (fun _ => True) (insert x) (insert x) := by
  have hplace : (c.only .earley).place x = c.place x := Chart.place_congr rfl x
  cases hp : c.place x with
  | error cause =>
    exact ⟨_, [], by simp, fun _ _ => trivial, outcome_insert_error hp, outcome_insert_error (hplace.trans hp)⟩
  | ok q =>
    have hinsert := yields_insert (hplace.trans hp)
    rw [hc.adds_only hx] at hinsert
    exact ⟨_, [x], by simpa using hx, fun _ _ => trivial, yields_insert hp, hinsert⟩

theorem alike_offer (hc : c.Mixed) {xs : List (Except Fault Item)} (hxs : ∀ x, .ok x ∈ xs → x.isOf .earley = true) :
    Alike c (fun fresh => ∀ y ∈ fresh, y.isOf .earley = true) (offer xs) (offer xs) := by
  induction xs generalizing c with
  | nil => exact alike_pure (by simp) c
  | cons made rest ih =>
    have hmade : Alike c (·.isOf .earley = true) (ofExcept made) (ofExcept made) :=
      alike_ofExcept (fun x hx => hxs x (by simp [hx])) c
    refine hmade.bind hc fun x c' hx hc' => (alike_insert hc' hx).bind hc' fun isNew c'' _ hc'' => ?_
    refine (ih hc'' fun y hy => hxs y (List.mem_cons_of_mem _ hy)).bind hc'' fun others c''' hothers _ => alike_pure ?_ _
    split
    · exact List.forall_mem_cons.2 ⟨hx, hothers⟩
    · exact hothers

/-- Where only the dotted rules of a row matter, the row may be read on either chart. -/
theorem alike_itemsTo (hc : c.Mixed) (stop : Value) {next : List Item → ChartM Item β}
    (hnext : ∀ items, (∀ x ∈ items, x.kind?.isSome = true) → next (items.filter (·.isOf .earley)) = next items)
    (h : ∀ items, Alike c good' (next items) (next items)) :
    Alike c good' (itemsTo stop >>= next) (itemsTo stop >>= next) := by
  have hindex : (c.only .earley).index stop = c.index stop := rfl
  cases hj : c.index stop with
  | error cause =>
    have herror : c.itemsTo stop = .error cause := by rw [Chart.itemsTo, hj]; rfl
    have herror' : (c.only .earley).itemsTo stop = .error cause := by rw [Chart.itemsTo, hindex, hj]; rfl
    exact ⟨_, [], by simp, fun a ha => (by cases ha), (outcome_list_error herror).bind_error _,
      (outcome_list_error herror').bind_error _⟩
  | ok j =>
    have hrow : c.itemsTo stop = .ok (c.rowTo j).elems := by rw [Chart.itemsTo, hj]; rfl
    have hrow' : (c.only .earley).itemsTo stop = .ok ((c.rowTo j).elems.filter (·.isOf .earley)) := by
      rw [Chart.itemsTo, hindex, hj, ← hc.elems_to]
      rfl
    obtain ⟨answer, ys, hys, hgood, hwork, hwork'⟩ := h (c.rowTo j).elems
    rw [← hnext _ fun x hx => hc.kinds x ⟨j, hx⟩] at hwork'
    exact ⟨answer, ys, hys, hgood, (yields_list hrow).bind_outcome hwork, (yields_list hrow').bind_outcome hwork'⟩

/-! ## The loop -/

/-- A constituent is no parent. -/
theorem filterMap_completed? {parents : List Item} (h : ∀ x ∈ parents, x.kind?.isSome = true) (symbol : String)
    (child : Item) (k : Int) :
    (parents.filter (·.isOf .earley)).filterMap (completed? symbol child k) =
      parents.filterMap (completed? symbol child k) := by
  rw [List.filterMap_filter]
  apply List.filterMap_congr
  intro x hx
  obtain ⟨kind, hkind⟩ := Option.isSome_iff_exists.1 (h x hx)
  cases kind <;> simp [Item.isOf, completed?, hkind]

theorem isOf_of_completed? {symbol : String} {child parent : Item} {k : Int}
    (h : completed? symbol child k parent = some (.ok y)) : y.isOf .earley = true := by
  cases parent <;> simp only [completed?, Item.kind?, reduceCtorEq, Option.some.injEq] at h
  split at h
  · cases h
  · split at h
    · cases h
      rfl
    · cases h

theorem alike_treat (hc : c.Mixed) (k : Int) (hx : x.isOf .earley = true) :
    Alike c (fun fresh => ∀ y ∈ fresh, y.isOf .earley = true) (p.treat w k x) (p.treat w k x) := by
  cases x with
  | earley rule dot span children =>
    have hnext : Alike c (fun _ => True) (ofExcept (rule.symbolAt dot)) (ofExcept (rule.symbolAt dot)) :=
      alike_ofExcept (fun _ _ => trivial) c
    refine hnext.bind hc fun next c' _ hc' => ?_
    cases next with
    | none =>
      refine alike_itemsTo hc' span.start (fun parents h => ?_) fun parents => alike_offer hc' fun y hy => ?_
      · rw [filterMap_completed? h]
      · obtain ⟨parent, -, hparent⟩ := List.mem_filterMap.1 hy
        exact isOf_of_completed? hparent
    | some a =>
      dsimp only
      split
      · refine alike_offer hc' fun y hy => ?_
        obtain ⟨r, -, hr⟩ := List.mem_map.1 hy
        cases hr
        rfl
      · split
        · refine (alike_offer hc' fun y hy => ?_).bind hc' fun _ c'' _ _ => alike_pure (by simp) c''
          simp only [Item.advance?, Option.toList_some, List.map_cons, List.map_nil, List.mem_singleton] at hy
          cases hy
          rfl
        · exact alike_pure (by simp) c'
  | _ => cases hx

theorem alike_drain (hc : c.Mixed) (k : Int) (fuel : Nat) {queue : List Item}
    (hqueue : ∀ x ∈ queue, x.isOf .earley = true) :
    Alike c (fun _ => True) (p.drain w k fuel queue) (p.drain w k fuel queue) := by
  induction fuel generalizing c queue with
  | zero =>
    cases queue with
    | nil => exact alike_pure trivial c
    | cons x rest => exact alike_throw _ c
  | succ fuel ih =>
    cases queue with
    | nil => exact alike_pure trivial c
    | cons x rest =>
      obtain ⟨hx, hrest⟩ := List.forall_mem_cons.1 hqueue
      exact (alike_treat hc k hx).bind hc fun fresh c' hfresh hc' =>
        ih hc' fun y hy => (List.mem_append.1 hy).elim (hrest y) (hfresh y)

/-! ## Closures -/

variable {k fuel fuel' : Nat} {d' : Chart Item}

/-- Without a constituent in the queue the closure adds what it adds on the dotted rules alone. -/
theorem closure_of_dotted (hc : c.Mixed) (hk : k ≤ c.length) (hrow : ∀ x ∈ (c.rowTo k).elems, x.isOf .earley = true)
    (h : Yields (p.closure fuel w k) (c.only .earley) () d') :
    ∃ ys, (∀ y ∈ ys, y.isOf .earley = true) ∧ d' = (c.only .earley).putAll ys ∧
      Yields (p.closure fuel w k) c () (c.putAll ys) := by
  obtain ⟨answer, ys, hys, -, hwork, hwork'⟩ := alike_drain (p := p) (w := w) hc k fuel hrow
  have hitems := yields_itemsTo (c := c.only .earley) hk
  rw [hc.elems_to, List.filter_eq_self.2 hrow] at hitems
  obtain ⟨rfl, rfl⟩ := h.outcome.unique (hitems.bind_outcome hwork')
  exact ⟨ys, hys, rfl, (yields_itemsTo hk).bind hwork⟩

/-- A constituent in the queue is a fault, once its turn has come. -/
theorem drain_faults (hc : c.Mixed) {before rest rest' : List Item} (hbefore : ∀ x ∈ before, x.isOf .earley = true)
    (hrest : ∀ x ∈ rest, x.isOf .earley = true) (hy : y.isOf .cyk = true)
    (h : Yields (p.drain w k fuel (before ++ rest)) (c.only .earley) () d') (hfuel : fuel < fuel') :
    ∃ c', Outcome (p.drain w k fuel' (before ++ y :: rest')) c (.error (.fault .part)) c' := by
  induction before generalizing c d' fuel fuel' rest rest' with
  | nil =>
    obtain ⟨fuel', rfl⟩ : ∃ f, fuel' = f + 1 := ⟨fuel' - 1, by omega⟩
    cases y with
    | cyk => exact ⟨c, (outcome_throw (.fault .part) c).bind_error _⟩
    | _ => cases hy
  | cons x before ih =>
    obtain ⟨hx, hbefore⟩ := List.forall_mem_cons.1 hbefore
    cases fuel with
    | zero =>
      obtain ⟨he, -⟩ := h.outcome.unique (outcome_throw .unfinished _)
      cases he
    | succ fuel =>
      obtain ⟨answer, ys, hys, hfresh, htreat, htreat'⟩ := alike_treat (p := p) (w := w) hc k hx
      cases answer with
      | error halt =>
        obtain ⟨he, -⟩ := h.outcome.unique (htreat'.bind_error _)
        cases he
      | ok fresh =>
        obtain ⟨hmixed, honly, -⟩ := only_putAll_earley hc hys
        have hall : ∀ z ∈ rest ++ fresh, z.isOf .earley = true := fun z hz =>
          (List.mem_append.1 hz).elim (hrest z) (hfresh fresh rfl z)
        have hqueue : ∀ z ∈ before ++ rest ++ fresh, z.isOf .earley = true := fun z hz => by
          rw [List.append_assoc] at hz
          exact (List.mem_append.1 hz).elim (hbefore z) (hall z)
        -- On the dotted rules alone the rest of the queue comes to an end as well.
        obtain ⟨answer, zs, -, -, -, hdrain⟩ := alike_drain (p := p) (w := w) hmixed k fuel hqueue
        rw [honly] at hdrain
        obtain ⟨rfl, -⟩ := h.outcome.unique (Yields.bind_outcome htreat' hdrain)
        rw [← honly, List.append_assoc] at hdrain
        obtain ⟨fuel', rfl⟩ : ∃ f, fuel' = f + 1 := ⟨fuel' - 1, by omega⟩
        have hlt : fuel < fuel' := by omega
        have hnext : ∃ c', Outcome (p.drain w k fuel' (before ++ y :: (rest' ++ fresh))) (c.putAll ys)
            (.error (.fault .part)) c' := ih hmixed hbefore hall hdrain hlt
        obtain ⟨c', hc'⟩ := hnext
        refine ⟨c', Yields.bind_outcome htreat ?_⟩
        show Outcome (p.drain w k fuel' (before ++ y :: rest' ++ fresh)) _ _ _
        rwa [List.append_assoc, List.cons_append]

theorem closure_of_constituent (hc : c.Mixed) (hk : k ≤ c.length) (hrow : ∃ x ∈ (c.rowTo k).elems, x.isOf .cyk = true)
    (h : Yields (p.closure fuel w k) (c.only .earley) () d') (hfuel : fuel < fuel') :
    ∃ c', Outcome (p.closure fuel' w k) c (.error (.fault .part)) c' := by
  obtain ⟨x, hx, hxk⟩ := hrow
  obtain ⟨y, hy⟩ := Option.isSome_iff_exists.1 (List.find?_isSome.2 ⟨x, hx, hxk⟩)
  obtain ⟨hyk, before, rest, hsplit, hbefore⟩ := List.find?_eq_some_iff_append.1 hy
  have hdotted : ∀ z ∈ before, z.isOf .earley = true := fun z hz => by
    have hother := hbefore z hz
    rwa [Item.isOf_cyk (hc.kinds z ⟨k, by simp [hsplit, hz]⟩), Bool.not_not] at hother
  have hfilter : ((c.only .earley).rowTo k).elems = before ++ rest.filter (·.isOf .earley) := by
    have hyno : y.isOf .earley = false := by
      rwa [Item.isOf_cyk (Item.kind_isSome hyk), Bool.not_eq_true'] at hyk
    rw [hc.elems_to, hsplit, List.filter_append, List.filter_cons, hyno, List.filter_eq_self.2 hdotted]
    rfl
  have hqueue : ∀ z ∈ before ++ rest.filter (·.isOf .earley), z.isOf .earley = true := fun z hz =>
    (List.mem_append.1 hz).elim (hdotted z) fun hz => (List.mem_filter.1 hz).2
  have hitems := yields_itemsTo (c := c.only .earley) hk
  rw [hfilter] at hitems
  obtain ⟨answer, ys, -, -, -, hdrain⟩ := alike_drain (p := p) (w := w) hc k fuel hqueue
  obtain ⟨rfl, -⟩ := h.outcome.unique (hitems.bind_outcome hdrain)
  have hitems' := yields_itemsTo hk
  rw [hsplit] at hitems'
  have hfault : ∃ c', Outcome (p.drain w k fuel' (before ++ y :: rest)) c (.error (.fault .part)) c' :=
    drain_faults hc hdotted (fun z hz => (List.mem_filter.1 hz).2) hyk hdrain hfuel
  obtain ⟨c', hc'⟩ := hfault
  exact ⟨c', hitems'.bind_outcome hc'⟩

/-- Of a chart of dotted rules and constituents, offered in any order, let a closure come to its end on the dotted
rules alone. If no constituent stops at the position, the closure of the shared chart ends as well, adds the same dotted
rules in the same order, leaves all items where they are and the part of the constituents as it is. If one does, the
closure ends with a fault. -/
theorem closure_beside_constituents {n : Nat} {xs : List Item} {d : Chart Item} (hxs : ∀ x ∈ xs, x.kind?.isSome = true)
    (hc : c = (Chart.empty n).putAll xs) (hd : d = (Chart.empty n).putAll (xs.filter (·.isOf .earley))) (hk : k ≤ n)
    (h : Yields (p.closure fuel w k) d () d') :
    ((∀ x ∈ (c.rowTo k).elems, x.isOf .earley = true) → ∃ ys, (∀ y ∈ ys, y.isOf .earley = true) ∧ d' = d.putAll ys ∧
      Yields (p.closure fuel w k) c () (c.putAll ys) ∧ c.newOf ys = d.newOf ys ∧ c.GrowsTo (c.putAll ys) ∧
      (c.putAll ys).only .cyk = c.only .cyk) ∧
    ((∃ x ∈ (c.rowTo k).elems, x.isOf .cyk = true) → ∀ fuel', fuel < fuel' → ∀ s : Logged Item, s.chart = c →
      ((p.closure fuel' w k).run.run s).1 = .error (.fault .part)) := by
  have hmixed : c.Mixed := hc ▸ (Chart.mixed_empty n).putAll hxs
  have honly : c.only .earley = d := by
    rw [hc, hd, ((Chart.mixed_empty n).only_putAll hxs .earley).1, Chart.only_empty]
  have hlen : k ≤ c.length := by
    rw [hc, Chart.length_putAll]
    exact hk
  rw [← honly] at h ⊢
  constructor
  · intro hrow
    obtain ⟨ys, hys, hd', hyields⟩ := closure_of_dotted hmixed hlen hrow h
    have hnone : ys.filter (·.isOf .cyk) = [] := by
      apply List.filter_eq_nil_iff.2
      intro y hy
      rw [Item.isOf_cyk (Item.kind_isSome (hys y hy)), hys y hy]
      decide
    have hcyk := (hmixed.only_putAll (fun y hy => Item.kind_isSome (hys y hy)) .cyk).1
    rw [hnone] at hcyk
    exact ⟨ys, hys, hd', hyields, (only_putAll_earley hmixed hys).2.2, hmixed.filed.growsTo_putAll ys, hcyk⟩
  · intro hrow fuel' hfuel s hs
    obtain ⟨c', hc'⟩ := closure_of_constituent hmixed hlen hrow h hfuel
    obtain ⟨s', hrun, -⟩ := hc' s hs
    rw [hrun]

/-! ## Beside one constituent -/

/-- A constituent of one word. -/
def oneWord : Item := .cyk ⟨"S", ["a"]⟩ (.between 0 1) [.word "a"]

theorem exists_closure_start (w : List String) :
    ∃ fuel d, Yields (closure ⟨.doubling, "S"⟩ fuel w (0 : Nat)) (seeded ⟨.doubling, "S"⟩ w) () d := by
  obtain ⟨h, -⟩ := proper_of_ofGrammar ofGrammar_doubling (by decide) (by decide)
  obtain ⟨n, c, hc⟩ := h.exists_completes w
  unfold Completes at hc
  rw [List.range_eq_range', List.range'_succ] at hc
  cases hc with
  | cons hk hd _ => exact ⟨_, _, (yields_itemsTo hk).bind (hd.yields (Nat.le_refl _))⟩

/-- The closure where the constituent starts goes on, and the one where it stops does not. -/
theorem closure_beside_constituents_oneWord :
    ∃ fuel d d' c, d = (Chart.empty 1).putAll [startItem ⟨.doubling, "S"⟩] ∧
      c = (Chart.empty 1).putAll [startItem ⟨.doubling, "S"⟩, oneWord] ∧
      Yields (closure ⟨.doubling, "S"⟩ fuel ["a"] (0 : Nat)) d () d' ∧
      (∃ ys, d' = d.putAll ys ∧ Yields (closure ⟨.doubling, "S"⟩ fuel ["a"] (0 : Nat)) c () (c.putAll ys) ∧
        c.newOf ys = d.newOf ys ∧ (c.putAll ys).only .cyk = c.only .cyk) ∧
      Yields (closure ⟨.doubling, "S"⟩ 0 ["a"] (1 : Nat)) d () d ∧
      ∀ fuel', 0 < fuel' → ∀ s : Logged Item, s.chart = c →
        ((closure ⟨.doubling, "S"⟩ fuel' ["a"] (1 : Nat)).run.run s).1 = .error (.fault .part) := by
  have hkinds : ∀ x ∈ [startItem ⟨.doubling, "S"⟩, oneWord], x.kind?.isSome = true := List.all_eq_true.1 rfl
  obtain ⟨fuel, d', hstart⟩ := exists_closure_start ["a"]
  have hstop : Yields (closure ⟨.doubling, "S"⟩ 0 ["a"] (1 : Nat)) ((Chart.empty 1).putAll [startItem ⟨.doubling, "S"⟩]) ()
      ((Chart.empty 1).putAll [startItem ⟨.doubling, "S"⟩]) :=
    (yields_itemsTo (Nat.le_refl 1)).bind (yields_pure () _)
  obtain ⟨hstarts, -⟩ := closure_beside_constituents hkinds rfl rfl (Nat.zero_le 1) hstart
  obtain ⟨-, hstops⟩ := closure_beside_constituents hkinds rfl rfl (Nat.le_refl 1) hstop
  obtain ⟨ys, -, hd', hyields, hnew, -, hcyk⟩ := hstarts (List.all_eq_true.1 rfl)
  exact ⟨fuel, _, d', _, rfl, rfl, hstart, ⟨ys, hd', hyields, hnew, hcyk⟩, hstop, hstops ⟨oneWord, .head _, rfl⟩⟩

/-- On the empty chart there is nothing to close, but where a constituent stops the closure meets a fault. -/
theorem closure_faults_oneWord :
    ofGrammar .doubling none = .ok ⟨.doubling, "S"⟩ ∧
      Yields (closure ⟨.doubling, "S"⟩ 0 ["a"] (1 : Nat)) (.empty 1) () (.empty 1) ∧
      ∀ fuel, ∀ s : Logged Item, s.chart = (Chart.empty 1).putAll [oneWord] →
        ((closure ⟨.doubling, "S"⟩ (fuel + 1) ["a"] (1 : Nat)).run.run s).1 = .error (.fault .part) := by
  refine ⟨ofGrammar_doubling, (yields_itemsTo (Nat.le_refl 1)).bind (yields_pure () _), fun fuel s hs => ?_⟩
  obtain ⟨c, source, records⟩ := s
  cases hs
  rfl

end ParseChart.Earley
