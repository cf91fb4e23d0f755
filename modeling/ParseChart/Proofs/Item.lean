import ParseChart.Item
import ParseChart.Proofs.ChartItem
/-!
# Items of parsers

A plain item is a dotted rule or a constituent between whole positions, over words and plain items. The
items that parsers make are plain, and between plain items `==` is equality.
-/

namespace ParseChart

open ChartItem

def Span.plain : Span → Bool
  | ⟨.int _, .int _⟩ => true
  | _ => false

@[simp] theorem Span.plain_between (i j : Int) : (Span.between i j).plain = true := rfl

theorem Span.exists_of_plain {s : Span} (h : s.plain = true) : ∃ i j, s = .between i j := by
  unfold Span.plain at h
  split at h
  · exact ⟨_, _, rfl⟩
  · cases h

theorem Span.eq_of_beq {s t : Span} (hs : s.plain = true) (ht : t.plain = true) (h : (s == t) = true) : s = t := by
  obtain ⟨i, j, rfl⟩ := Span.exists_of_plain hs
  obtain ⟨k, l, rfl⟩ := Span.exists_of_plain ht
  rw [Span.beq_def, Bool.and_eq_true] at h
  have hi : i = k := Value.int_inj_of_key (Value.key_eq_of_same h.1)
  have hj : j = l := Value.int_inj_of_key (Value.key_eq_of_same h.2)
  rw [hi, hj]

theorem Value.text_beq {s t : String} : (Value.text s == .text t) = true ↔ s = t := by
  show Value.same _ _ = true ↔ _
  simp [Value.same, Value.key]

/-! ## Positions in ids -/

theorem append_cons_inj_of_last {α : Type} {a : α} {xs ys us vs : List α} (hus : a ∉ us) (hvs : a ∉ vs)
    (h : xs ++ a :: us = ys ++ a :: vs) : xs = ys ∧ us = vs := by
  rcases List.append_eq_append_iff.1 h with ⟨between, rfl, he⟩ | ⟨between, rfl, he⟩ <;>
    cases between <;> cases he <;> simp_all

theorem toDigits_inj {m n : Nat} (h : Nat.toDigits 10 m = Nat.toDigits 10 n) : m = n := by
  simpa only [Nat.ofDigitChars_ten_toDigits] using congrArg (Nat.ofDigitChars 10 · 0) h

theorem Value.display_int (n : Nat) : (Value.int n).display.toList = Nat.toDigits 10 n := Nat.toList_repr

theorem Value.display_bool (b : Bool) :
    (Value.bool b).display.toList = if b then ['T', 'r', 'u', 'e'] else ['F', 'a', 'l', 's', 'e'] := by
  cases b <;> decide

/-- No position has a blank. -/
theorem Value.blank_not_mem_display {u : Value} {i : Nat} (hu : u.int? = some (i : Int)) :
    ' ' ∉ u.display.toList := by
  cases u with
  | int n =>
    cases hu
    rw [display_int]
    intro h
    have hdigit := Nat.isDigit_of_mem_toDigits (by decide) (by decide) h
    revert hdigit
    decide
  | bool b =>
    rw [display_bool]
    cases b <;> decide
  | _ => cases hu

/-- Truth values have letters and numbers have not. -/
theorem Value.display_bool_ne (b : Bool) (n : Nat) : (Value.bool b).display ≠ (Value.int n).display := by
  intro h
  have h := congrArg String.toList h
  rw [display_bool, display_int] at h
  have hletter : 'e' ∈ Nat.toDigits 10 n := by
    rw [← h]
    cases b <;> decide
  have hdigit := Nat.isDigit_of_mem_toDigits (by decide) (by decide) hletter
  revert hdigit
  decide

/-- A position is known from the way it is written. -/
theorem Value.display_inj {u v : Value} {i j : Nat} (hu : u.int? = some (i : Int)) (hv : v.int? = some (j : Int))
    (h : u.display = v.display) : u = v := by
  cases u with
  | int m =>
    cases hu
    cases v with
    | int n =>
      cases hv
      have hdigits := congrArg String.toList h
      rw [display_int, display_int] at hdigits
      rw [toDigits_inj hdigits]
    | bool b => exact absurd h.symm (display_bool_ne b i)
    | _ => cases hv
  | bool a =>
    cases v with
    | int n =>
      cases hv
      exact absurd h (display_bool_ne a j)
    | bool b =>
      have hletters := congrArg String.toList h
      rw [display_bool, display_bool] at hletters
      cases a <;> cases b <;> first | rfl | cases hletters
    | _ => cases hv
  | _ => cases hu

/-- A position at the end of a text can be read off, as it stands behind the last blank. -/
theorem field_inj {s t : String} {u v : Value} {i j : Nat} (hu : u.int? = some (i : Int)) (hv : v.int? = some (j : Int))
    (h : s ++ ", " ++ u.display = t ++ ", " ++ v.display) : s = t ∧ u = v := by
  have hsep : (", " : String).toList = [','] ++ [' '] := rfl
  have h := congrArg String.toList h
  simp only [String.toList_append, hsep, ← List.append_assoc] at h
  rw [List.append_assoc, List.append_assoc _ [' ']] at h
  obtain ⟨hs, hd⟩ := append_cons_inj_of_last (Value.blank_not_mem_display hu) (Value.blank_not_mem_display hv) h
  exact ⟨String.toList_inj.1 (List.append_cancel_right hs), Value.display_inj hu hv (String.toList_inj.1 hd)⟩

/-- The span at the end of an id can be read off, whatever stands before it. -/
theorem Span.read_inj {s t : Span} {i j k l : Nat} (hs : s.start.int? = some (i : Int)) (hs' : s.stop.int? = some (j : Int))
    (ht : t.start.int? = some (k : Int)) (ht' : t.stop.int? = some (l : Int)) {front front' : String}
    (h : front ++ ", " ++ s.start.display ++ ", " ++ s.stop.display ++ ")" =
      front' ++ ", " ++ t.start.display ++ ", " ++ t.stop.display ++ ")") : front = front' ∧ s = t := by
  obtain ⟨h, hstop⟩ := field_inj hs' ht' ((String.append_left_inj ")").1 h)
  obtain ⟨hfront, hstart⟩ := field_inj hs ht h
  cases s
  cases t
  exact ⟨hfront, by simp_all⟩

/-! ## Plain items -/

namespace Item

/-- The id of a constituent fixes its symbol and its span. -/
theorem ends_of_id {r s : Rule} {i j k l : Nat} {xs ys : List Item} {u v : Value}
    (hu : (Item.cyk r (.between i j) xs).id? = some u) (hv : (Item.cyk s (.between k l) ys).id? = some v)
    (h : (u == v) = true) : r.lhs = s.lhs ∧ i = k ∧ j = l := by
  cases hu
  cases hv
  rw [Value.text_beq] at h
  obtain ⟨h, hspan⟩ := Span.read_inj (i := i) (j := j) (k := k) (l := l) rfl rfl rfl rfl h
  simp only [Span.between, Span.mk.injEq, Value.int.injEq, Int.natCast_inj] at hspan
  exact ⟨(String.append_right_inj "CYK(").1 h, hspan⟩

mutual

def plain : Item → Bool
  | .word _ => true
  | .earley _ _ p xs | .cyk _ p xs => p.plain && plainAll xs
  | _ => false

def plainAll : List Item → Bool
  | [] => true
  | x :: xs => plain x && plainAll xs

end

theorem plainAll_append (xs ys : List Item) : plainAll (xs ++ ys) = (plainAll xs && plainAll ys) := by
  induction xs with
  | nil => simp [plainAll]
  | cons x xs ih => simp [plainAll, ih, Bool.and_assoc]

mutual

theorem eq_of_same : ∀ {x y : Item}, x.plain = true → y.plain = true → same x y = true → x = y
  | .word _, y, _, _, h => by cases y <;> simp_all [same]
  | .bare .., _, hx, _, _ => by simp [plain] at hx
  | .node .., _, hx, _, _ => by simp [plain] at hx
  | .earley _ _ _ xs, y, hx, hy, h => by
    cases y <;> simp only [same, Bool.and_eq_true, beq_iff_eq, Bool.false_eq_true] at h
    simp only [plain, Bool.and_eq_true] at hx hy
    rw [h.1.1.1, h.1.1.2, Span.eq_of_beq hx.1 hy.1 h.1.2, eq_of_sameAll hx.2 hy.2 h.2]
  | .cyk _ _ xs, y, hx, hy, h => by
    cases y <;> simp only [same, Bool.and_eq_true, beq_iff_eq, Bool.false_eq_true] at h
    simp only [plain, Bool.and_eq_true] at hx hy
    rw [h.1.1, Span.eq_of_beq hx.1 hy.1 h.1.2, eq_of_sameAll hx.2 hy.2 h.2]

theorem eq_of_sameAll : ∀ {xs ys : List Item}, plainAll xs = true → plainAll ys = true → sameAll xs ys = true →
    xs = ys
  | [], [], _, _, _ => rfl
  | [], _ :: _, _, _, h => by simp [sameAll] at h
  | _ :: _, [], _, _, h => by simp [sameAll] at h
  | x :: xs, y :: ys, hx, hy, h => by
    simp only [plainAll, sameAll, Bool.and_eq_true] at hx hy h
    rw [eq_of_same hx.1 hy.1 h.1, eq_of_sameAll hx.2 hy.2 h.2]

end

theorem eq_of_beq {x y : Item} (hx : x.plain = true) (hy : y.plain = true) (h : (x == y) = true) : x = y :=
  eq_of_same hx hy (by rwa [beq_eq_same] at h)

theorem kind_eq_of_beq {x y : Item} (h : (x == y) = true) : x.kind? = y.kind? := by
  rw [beq_eq_same] at h
  cases x <;> cases y <;> first | rfl | cases h

def derives (symbol : String) (x : Item) : Bool := x.rule?.any (·.lhs == symbol)

/-- A dotted rule and a constituent never have equal ids. -/
theorem kind_eq_of_id {x y : Item} {i j : Value} (hx : x.kind?.isSome = true) (hy : y.kind?.isSome = true)
    (hi : x.id? = some i) (hj : y.id? = some j) (h : (i == j) = true) : x.kind? = y.kind? := by
  have hne : ∀ s t : String, "Earley(" ++ s ≠ "CYK(" ++ t := fun s t he => by
    have hfirst := congrArg (fun text : String => text.toList.head?) he
    simp at hfirst
  cases x <;> cases y <;> simp only [kind?, Option.isSome_none, Bool.false_eq_true] at hx hy ⊢
  all_goals
    cases hi
    cases hj
    rw [Value.text_beq] at h
    simp only [String.append_assoc] at h
  · exact absurd h (hne _ _)
  · exact absurd h.symm (hne _ _)

end Item

theorem ChartItem.Over.span {i j : Nat} {r : Rule} {p : Span} {xs : List Item} (h : Over (Item.cyk r p xs) i j) :
    p = .between i j := by
  obtain ⟨start, stop⟩ := p
  have hstart := h.start
  have hstop := h.stop
  cases hstart
  cases hstop
  rfl

end ParseChart
