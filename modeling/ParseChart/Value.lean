import ParseChart.Number.Extended
import ParseChart.Number.Shortest
import ParseChart.Text.Quoted
/-!
# Values

Positions and ids come from outside, so they are values of any kind. Numbers of all kinds compare
by their exact value, a truth value counting as 1 or 0: `same` holds of `true`, `1` and `1.0`.
Everything else is the same only as itself, a list member by member.
-/

namespace ParseChart

inductive Value
  | null
  | bool (b : Bool)
  | int (n : Int)
  | float (x : Binary64)
  | text (s : String)
  | list (members : List Value)
  deriving Repr, Inhabited

namespace Value

/-- What two values that are not both lists are compared by. -/
inductive Key
  | null
  | number (x : Extended)
  | text (s : String)
  | list
  deriving DecidableEq, Repr

def key : Value → Key
  | .null => .null
  | .bool b => .number (.finite b.toNat)
  | .int n => .number (.finite n)
  | .float x => .number x.value
  | .text s => .text s
  | .list _ => .list

def number? (x : Value) : Option Extended :=
  match x.key with
  | .number a => some a
  | _ => none

/-- Truth values and integers serve as positions; a float does not, even a whole one. -/
def int? : Value → Option Int
  | .bool b => some b.toNat
  | .int n => some n
  | _ => none

mutual

def same : Value → Value → Bool
  | .list xs, .list ys => sameAll xs ys
  | .int a, .int b => a == b
  | x, y => x.key == y.key

def sameAll : List Value → List Value → Bool
  | [], [] => true
  | x :: xs, y :: ys => same x y && sameAll xs ys
  | _, _ => false

end

instance : BEq Value := ⟨same⟩

theorem int_inj_of_key {a b : Int} (h : (Value.int a).key = (Value.int b).key) : a = b := by
  simpa [key, Rat.intCast_inj] using h

/-- Values that are the same have the same key; lists have the same members besides. -/
theorem key_eq_of_same {x y : Value} (h : same x y = true) : x.key = y.key := by
  unfold same at h
  split at h
  · rfl
  · simp_all
  · simpa using h

mutual

theorem same_refl : ∀ x : Value, same x x = true
  | .list xs => by rw [same]; exact sameAll_refl xs
  | .null | .bool _ | .int _ | .float _ | .text _ => by simp [same]

theorem sameAll_refl : ∀ xs : List Value, sameAll xs xs = true
  | [] => rfl
  | x :: xs => by simp [sameAll, same_refl x, sameAll_refl xs]

end

mutual

theorem same_symm : ∀ {x y : Value}, same x y = true → same y x = true
  | .list xs, .list ys, h => by rw [same] at h ⊢; exact sameAll_symm h
  | x, y, h => by
    have hk := key_eq_of_same h
    unfold same
    split
    · simp only [same] at h
      exact sameAll_symm h
    · simp [int_inj_of_key hk]
    · simp [hk]

theorem sameAll_symm : ∀ {xs ys : List Value}, sameAll xs ys = true → sameAll ys xs = true
  | [], [], _ => rfl
  | x :: xs, y :: ys, h => by
    simp only [sameAll, Bool.and_eq_true] at h ⊢
    exact ⟨same_symm h.1, sameAll_symm h.2⟩

end

mutual

theorem same_trans : ∀ {x y z : Value}, same x y = true → same y z = true → same x z = true
  | .list xs, .list ys, .list zs, h, h' => by rw [same] at h h' ⊢; exact sameAll_trans h h'
  | x, y, z, h, h' => by
    have hk := (key_eq_of_same h).trans (key_eq_of_same h')
    unfold same
    split
    · cases y with
      | list ys => simp only [same] at h h'; exact sameAll_trans h h'
      | _ => cases key_eq_of_same h
    · simp [int_inj_of_key hk]
    · simp [hk]

theorem sameAll_trans : ∀ {xs ys zs : List Value}, sameAll xs ys = true → sameAll ys zs = true →
    sameAll xs zs = true
  | [], [], [], _, _ => rfl
  | x :: xs, y :: ys, z :: zs, h, h' => by
    simp only [sameAll, Bool.and_eq_true] at h h' ⊢
    exact ⟨same_trans h.1 h'.1, sameAll_trans h.2 h'.2⟩

end

instance : EquivBEq Value where
  rfl := same_refl _
  symm := same_symm
  trans := same_trans

/-- A list may change, so it names nothing. -/
def isId : Value → Bool
  | .list _ => false
  | _ => true

mutual

/-- The form in messages: a text is quoted. -/
def quoted : Value → String
  | .null => "None"
  | .bool b => if b then "True" else "False"
  | .int n => n.repr
  | .float x => x.text
  | .text s => Text.quoted s
  | .list members => "[" ++ ", ".intercalate (quotedAll members) ++ "]"

def quotedAll : List Value → List String
  | [] => []
  | x :: xs => quoted x :: quotedAll xs

end

/-- The form in ids: a text stands for itself. -/
def display : Value → String
  | .text s => s
  | x => x.quoted

/-- The whole part of a number, as records show a position. -/
def truncate : Value → Int
  | .float x => x.truncate
  | x => x.int?.getD 0

end Value

end ParseChart
