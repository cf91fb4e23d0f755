import ParseChart.Cyk
import ParseChart.Proofs.Item
/-!
# Items further on

An item further on is the same item with all its positions, and those of all that it is made of, moved by
the same distance. Its rule stays, so what a tabular parser makes of items further on is what it makes of
the items, further on.
-/

namespace ParseChart

/-- Positions of parsers are integers; no other value is moved. -/
def Value.shift (n : Int) : Value → Value
  | .int k => .int (k + n)
  | v => v

def Span.shift (n : Int) (s : Span) : Span := ⟨s.start.shift n, s.stop.shift n⟩

namespace Item

mutual

def shift (n : Int) : Item → Item
  | .word text => .word text
  | .earley r d p xs => .earley r d (p.shift n) (shiftAll n xs)
  | .cyk r p xs => .cyk r (p.shift n) (shiftAll n xs)
  | .node i p r complete xs => .node i (p.shift n) r complete (shiftAll n xs)
  | .bare serial i start stop => .bare serial i (start.map (Value.shift n)) (stop.map (Value.shift n))

def shiftAll (n : Int) : List Item → List Item
  | [] => []
  | x :: xs => shift n x :: shiftAll n xs

end

variable {x y : Item} {n : Int}

theorem shift_neg_value (n : Int) (v : Value) : (v.shift n).shift (-n) = v := by
  cases v with
  | int k => exact congrArg Value.int (Int.add_neg_cancel_right k n)
  | _ => rfl

theorem shift_neg_span (n : Int) (s : Span) : (s.shift n).shift (-n) = s := by
  simp [Span.shift, shift_neg_value]

mutual

theorem shift_neg (n : Int) : ∀ x : Item, (x.shift n).shift (-n) = x
  | .word _ => rfl
  | .earley _ _ _ xs | .cyk _ _ xs | .node _ _ _ _ xs => by simp [shift, shift_neg_span, shiftAll_neg n xs]
  | .bare _ _ start stop => by cases start <;> cases stop <;> simp [shift, shift_neg_value]

theorem shiftAll_neg (n : Int) : ∀ xs : List Item, shiftAll (-n) (shiftAll n xs) = xs
  | [] => rfl
  | x :: xs => by simp [shiftAll, shift_neg n x, shiftAll_neg n xs]

end

theorem shift_inj (h : x.shift n = y.shift n) : x = y := by
  rw [← shift_neg n x, h, shift_neg]

mutual

theorem plain_shift (n : Int) : ∀ x : Item, x.plain = true → (x.shift n).plain = true
  | .word _, h => h
  | .bare .., h => by simp [plain] at h
  | .node .., h => by simp [plain] at h
  | .earley _ _ p xs, h | .cyk _ p xs, h => by
    simp only [plain, Bool.and_eq_true] at h
    obtain ⟨i, j, rfl⟩ := Span.exists_of_plain h.1
    simpa [shift, plain] using ⟨rfl, plainAll_shiftAll n xs h.2⟩

theorem plainAll_shiftAll (n : Int) : ∀ xs : List Item, plainAll xs = true → plainAll (shiftAll n xs) = true
  | [], h => h
  | x :: xs, h => by
    simp only [plainAll, Bool.and_eq_true] at h
    simp [shiftAll, plainAll, plain_shift n x h.1, plainAll_shiftAll n xs h.2]

end

@[simp] theorem rule?_shift (n : Int) (x : Item) : (x.shift n).rule? = x.rule? := by
  cases x <;> rfl

@[simp] theorem kind?_shift (n : Int) (x : Item) : (x.shift n).kind? = x.kind? := by
  cases x <;> rfl

@[simp] theorem derives_shift (n : Int) (a : String) (x : Item) : (x.shift n).derives a = x.derives a := by
  rw [derives, rule?_shift, derives]

end Item

namespace Cyk

variable (p : Cyk)

theorem lexicalItems_add (i k : Nat) (word : String) :
    p.lexicalItems (k + i) word = (p.lexicalItems k word).map (Item.shift i) := by
  unfold lexicalItems
  rw [List.map_map]
  apply List.map_congr_left
  intro r _
  simp [Item.shift, Item.shiftAll, Span.shift, Span.between, Value.shift]
  omega

theorem joins_add (n i j : Int) (left right : Item) :
    p.joins (i + n) (j + n) (left.shift n) (right.shift n) = (p.joins i j left right).map (Item.shift n) := by
  unfold joins
  rw [Item.rule?_shift, Item.rule?_shift]
  split
  · rw [List.map_map]
    rfl
  · rfl

end Cyk

end ParseChart
