import Mathlib.Data.List.Basic
import Mathlib.Data.List.Induction
import ParseChart.Proofs.Buckets
/-!
# The order of keys

Buckets stand in the order in which their keys first came. The keys and what is filed under each of them
make up the buckets, so to file once more what buckets hold gives the same buckets.
-/

namespace ParseChart

/-! ## First occurrences -/

section FirstOccurrences

variable {α β : Type} [BEq α] [LawfulBEq α] [BEq β] [LawfulBEq β] {xs ys : List α} {x : α}

omit [LawfulBEq α] in
/-- The elements of a list, each once, in the order in which they first come. -/
structure FirstOccurrences (xs ys : List α) : Prop where
  mem_iff : ∀ x, x ∈ ys ↔ x ∈ xs
  ordered : ys.Pairwise fun x y => xs.idxOf x < xs.idxOf y

omit [LawfulBEq α] in
theorem FirstOccurrences.nodup (h : FirstOccurrences xs ys) : ys.Nodup :=
  h.ordered.imp fun hlt he => by
    subst he
    exact Nat.lt_irrefl _ hlt

theorem eraseDups_concat_of_mem (h : x ∈ xs) : (xs ++ [x]).eraseDups = xs.eraseDups := by
  rw [List.eraseDups_append, List.removeAll, List.filter_cons_of_neg (by simpa using h), List.filter_nil,
    List.eraseDups_nil, List.append_nil]

theorem eraseDups_concat_of_not_mem (h : x ∉ xs) : (xs ++ [x]).eraseDups = xs.eraseDups ++ [x] := by
  rw [List.eraseDups_append, List.removeAll, List.filter_cons_of_pos (by simpa using h), List.filter_nil,
    List.eraseDups_cons, List.filter_nil, List.eraseDups_nil]

theorem firstOccurrences_eraseDups (xs : List α) : FirstOccurrences xs xs.eraseDups := by
  refine ⟨fun x => List.mem_eraseDups, ?_⟩
  induction xs using List.reverseRecOn with
  | nil => simp
  | append_singleton xs x ih =>
    have hold : xs.eraseDups.Pairwise fun y z => (xs ++ [x]).idxOf y < (xs ++ [x]).idxOf z :=
      ih.imp_of_mem fun hy hz hlt => by
        rwa [List.idxOf_append_of_mem (List.mem_eraseDups.1 hy), List.idxOf_append_of_mem (List.mem_eraseDups.1 hz)]
    by_cases hx : x ∈ xs
    · rwa [eraseDups_concat_of_mem hx]
    · rw [eraseDups_concat_of_not_mem hx, List.pairwise_append]
      refine ⟨hold, List.pairwise_singleton _ _, fun y hy z hz => ?_⟩
      obtain rfl := List.mem_singleton.1 hz
      have hy := List.mem_eraseDups.1 hy
      rw [List.idxOf_append_of_mem hy, List.idxOf_append_of_notMem hx]
      exact Nat.lt_add_right _ (List.idxOf_lt_length_of_mem hy)

theorem eraseDups_of_nodup (h : xs.Nodup) : xs.eraseDups = xs := by
  induction xs using List.reverseRecOn with
  | nil => rfl
  | append_singleton xs x ih =>
    obtain ⟨hxs, -, hx⟩ := List.nodup_append.1 h
    rw [eraseDups_concat_of_not_mem fun hmem => hx x hmem x (by simp) rfl, ih hxs]

theorem filter_eraseDups (q : α → Bool) (xs : List α) : xs.eraseDups.filter q = (xs.filter q).eraseDups := by
  induction xs using List.reverseRecOn with
  | nil => rfl
  | append_singleton xs x ih =>
    by_cases hq : q x = true
    · rw [List.filter_append, List.filter_cons_of_pos hq, List.filter_nil]
      by_cases hx : x ∈ xs
      · rw [eraseDups_concat_of_mem hx, eraseDups_concat_of_mem (List.mem_filter.2 ⟨hx, hq⟩), ih]
      · rw [eraseDups_concat_of_not_mem hx, eraseDups_concat_of_not_mem fun h => hx (List.mem_filter.1 h).1,
          List.filter_append, List.filter_cons_of_pos hq, List.filter_nil, ih]
    · rw [List.filter_append, List.filter_cons_of_neg hq, List.filter_nil, List.append_nil, ← ih]
      by_cases hx : x ∈ xs
      · rw [eraseDups_concat_of_mem hx]
      · rw [eraseDups_concat_of_not_mem hx, List.filter_append, List.filter_cons_of_neg hq, List.filter_nil,
          List.append_nil]

theorem eraseDups_map_eraseDups (f : α → β) (xs : List α) : (xs.eraseDups.map f).eraseDups = (xs.map f).eraseDups := by
  induction xs using List.reverseRecOn with
  | nil => rfl
  | append_singleton xs x ih =>
    rw [List.map_append, List.map_singleton]
    by_cases hx : x ∈ xs
    · rw [eraseDups_concat_of_mem hx, eraseDups_concat_of_mem (List.mem_map_of_mem hx), ih]
    · rw [eraseDups_concat_of_not_mem hx, List.map_append, List.map_singleton]
      by_cases hf : f x ∈ xs.map f
      · have hf' : f x ∈ xs.eraseDups.map f := by simpa using hf
        rw [eraseDups_concat_of_mem hf, eraseDups_concat_of_mem hf', ih]
      · have hf' : f x ∉ xs.eraseDups.map f := by simpa using hf
        rw [eraseDups_concat_of_not_mem hf, eraseDups_concat_of_not_mem hf', ih]

end FirstOccurrences

namespace Buckets

variable {κ α : Type} [BEq κ] [LawfulBEq κ] {key? : α → Option κ} {bs bs' : Buckets κ α}

/-! ## Keys -/

theorem keys_add (key : κ) (x : α) (bs : Buckets κ α) :
    keys (add key x bs) = if key ∈ keys bs then keys bs else keys bs ++ [key] := by
  induction bs with
  | nil => rfl
  | cons b rest ih =>
    unfold keys at ih ⊢
    by_cases hb : b.key = key
    · simp [add, hb]
    · simp only [add, beq_iff_eq, hb, if_false, List.map_cons, List.mem_cons, Ne.symm hb, false_or, ih]
      by_cases hkey : key ∈ rest.map (·.key)
      · rw [if_pos hkey, if_pos hkey]
      · rw [if_neg hkey, if_neg hkey]
        rfl

omit [LawfulBEq κ] in
theorem ofList_concat (key? : α → Option κ) (xs : List α) (x : α) :
    ofList key? (xs ++ [x]) = (key? x).elim (ofList key? xs) fun key => add key x (ofList key? xs) := by
  unfold ofList addAll
  rw [List.foldl_append]
  cases hx : key? x <;> simp [hx]

omit [LawfulBEq κ] in
theorem nodup_elems_ofList {xs : List α} (h : xs.Nodup) : (elems (ofList key? xs)).Nodup := by
  induction xs using List.reverseRecOn with
  | nil => exact List.nodup_nil
  | append_singleton xs x ih =>
    obtain ⟨hxs, -, hx⟩ := List.nodup_append.1 h
    rw [ofList_concat]
    cases key? x with
    | none => exact ih hxs
    | some key =>
      refine nodup_elems_add (ih hxs) fun hmem => ?_
      exact hx x (mem_elems_ofList.1 hmem).1 x (by simp) rfl

theorem keys_ofList (key? : α → Option κ) (xs : List α) : keys (ofList key? xs) = (xs.filterMap key?).eraseDups := by
  induction xs using List.reverseRecOn with
  | nil => rfl
  | append_singleton xs x ih =>
    rw [ofList_concat, List.filterMap_append]
    cases hx : key? x with
    | none => simp [hx, ih]
    | some key =>
      have hlast : [x].filterMap key? = [key] := by simp [hx]
      rw [Option.elim_some, keys_add, ih, hlast]
      simp only [List.mem_eraseDups]
      split
      · rename_i hmem
        rw [eraseDups_concat_of_mem hmem]
      · rename_i hmem
        rw [eraseDups_concat_of_not_mem hmem]

/-- Buckets are their keys and what stands under them. -/
theorem Keyed.eq_map (h : Keyed key? bs) : bs = (keys bs).map fun key => ⟨key, get key bs⟩ := by
  induction bs with
  | nil => rfl
  | cons b rest ih =>
    have hrest : (keys rest).map (fun key => (⟨key, get key (b :: rest)⟩ : Bucket κ α)) = rest := by
      conv_rhs => rw [ih h.tail]
      refine List.map_congr_left fun key hkey => ?_
      obtain ⟨c, hc, rfl⟩ := List.mem_map.1 hkey
      rw [get, if_neg]
      rw [(List.pairwise_cons.1 h.distinct).1 c hc]
      exact Bool.false_ne_true
    have hfirst : get b.key (b :: rest) = b.elems := by simp [get]
    rw [keys, List.map_cons, List.map_cons, hfirst, ← keys, hrest]

theorem Keyed.ext (h : Keyed key? bs) (h' : Keyed key? bs') (hkeys : keys bs = keys bs')
    (hget : ∀ key, get key bs = get key bs') : bs = bs' := by
  rw [h.eq_map, h'.eq_map, hkeys]
  simp only [hget]

theorem Keyed.elems_eq_flatMap (h : Keyed key? bs) : elems bs = (keys bs).flatMap fun key => get key bs := by
  conv_lhs => rw [h.eq_map]
  rw [elems, List.flatMap_map]

/-- The keys come in the order of the elements. -/
theorem Keyed.eraseDups_keys (h : Keyed key? bs) : ((elems bs).filterMap key?).eraseDups = keys bs := by
  induction bs with
  | nil => rfl
  | cons b rest ih =>
    have hown : ∀ x ∈ b.elems, key? x = some b.key := fun x hx => by
      obtain ⟨key, hk, he⟩ := Option.any_eq_true _ _ |>.1 (h.own b (by simp) x hx)
      rw [hk, beq_iff_eq.1 he]
    obtain ⟨x, xs, hxs⟩ := List.exists_cons_of_ne_nil (h.nonempty b (by simp))
    have hrest : ∀ key ∈ (elems rest).filterMap key?, (!key == b.key) = true := fun key hkey => by
      rw [Bool.not_eq_true', ← Bool.not_eq_true, beq_iff_eq]
      rintro rfl
      obtain ⟨c, hc, he⟩ := List.mem_map.1 (h.tail.mem_keys.2 (List.mem_filterMap.1 hkey))
      have hne := (List.pairwise_cons.1 h.distinct).1 c hc
      rw [he, beq_self_eq_true] at hne
      cases hne
    have hsame : ∀ key ∈ xs.filterMap key?, (!key == b.key) = false := fun key hkey => by
      obtain ⟨y, hy, hk⟩ := List.mem_filterMap.1 hkey
      rw [hown y (by simp [hxs, hy]), Option.some.injEq] at hk
      simp [hk]
    rw [elems, List.flatMap_cons, ← elems, hxs, List.cons_append, List.filterMap_cons, hown x (by simp [hxs]),
      List.eraseDups_cons, List.filterMap_append, List.filter_append, List.filter_eq_nil_iff.2 (by simpa using hsame),
      List.filter_eq_self.2 hrest, List.nil_append, ih h.tail]
    rfl

/-- What buckets hold, filed once more, gives the same buckets. -/
theorem Keyed.ofList_elems (h : Keyed key? bs) : ofList key? (elems bs) = bs := by
  refine (keyed_ofList key? (elems bs)).ext h ?_ fun key => ?_
  · rw [keys_ofList, h.eraseDups_keys]
  · rw [get_ofList, h.get_eq_filter]

end Buckets

end ParseChart
