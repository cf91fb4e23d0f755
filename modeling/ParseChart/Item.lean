import ParseChart.ChartItem
import ParseChart.Text.Quoted
/-!
# The parsers' items

A parser's own items are dotted rules, with the derivation of what stands before the dot, and
constituents. What a parser may meet beside them on a shared chart is `node`, for items of other
parsers, which the chart keeps but no parser reads, and `bare`, for objects with no more than the parts
given, each equal to itself alone. A word is a child of items. Equality is deep, and compares positions
and ids as values.
-/

namespace ParseChart

structure Span where
  start : Value
  stop : Value
  deriving Repr, Inhabited

namespace Span

/-- The span between two whole positions. -/
def between (i j : Int) : Span := ⟨.int i, .int j⟩

def display (s : Span) : String := "[" ++ s.start.display ++ ", " ++ s.stop.display ++ "]"

def same (s t : Span) : Bool := s.start == t.start && s.stop == t.stop

instance : BEq Span := ⟨same⟩

theorem beq_def (s t : Span) : (s == t) = (s.start == t.start && s.stop == t.stop) := rfl

instance : EquivBEq Span where
  rfl := by simp [beq_def]
  symm := by simp only [beq_def, Bool.and_eq_true]; exact fun h => ⟨BEq.symm h.1, BEq.symm h.2⟩
  trans := by
    simp only [beq_def, Bool.and_eq_true]
    exact fun h h' => ⟨BEq.trans h.1 h'.1, BEq.trans h.2 h'.2⟩

end Span

inductive Item
  | word (text : String)
  | earley (rule : Rule) (dot : Int) (span : Span) (children : List Item)
  | cyk (rule : Rule) (span : Span) (children : List Item)
  | node (id : Value) (span : Span) (rule : Rule) (complete : Bool) (children : List Item)
  | bare (serial : Nat) (id start stop : Option Value)
  deriving Repr, Inhabited

namespace Item

mutual

def same : Item → Item → Bool
  | .word s, .word t => s == t
  | .earley r d p xs, .earley r' d' p' ys => r == r' && d == d' && p == p' && sameAll xs ys
  | .cyk r p xs, .cyk r' p' ys => r == r' && p == p' && sameAll xs ys
  | .node i p r c xs, .node i' p' r' c' ys => i == i' && p == p' && r == r' && c == c' && sameAll xs ys
  -- The parts of a bare object go with its serial.
  | .bare n i s t, .bare m i' s' t' => n == m && i == i' && s == s' && t == t'
  | _, _ => false

def sameAll : List Item → List Item → Bool
  | [], [] => true
  | x :: xs, y :: ys => same x y && sameAll xs ys
  | _, _ => false

end

mutual

theorem same_refl : ∀ x : Item, same x x = true
  | .word _ | .bare .. => by simp [same]
  | .earley _ _ _ xs | .cyk _ _ xs | .node _ _ _ _ xs => by simp [same, sameAll_refl xs]

theorem sameAll_refl : ∀ xs : List Item, sameAll xs xs = true
  | [] => rfl
  | x :: xs => by simp [sameAll, same_refl x, sameAll_refl xs]

end

mutual

theorem same_symm : ∀ {x y : Item}, same x y = true → same y x = true
  | .word _, y, h => by cases y <;> simp_all [same]
  | .bare .., y, h => by
    cases y <;> simp only [same, Bool.and_eq_true, beq_iff_eq, Bool.false_eq_true] at h ⊢
    exact ⟨⟨⟨h.1.1.1.symm, BEq.symm h.1.1.2⟩, BEq.symm h.1.2⟩, BEq.symm h.2⟩
  | .earley _ _ _ xs, y, h => by
    cases y <;> simp only [same, Bool.and_eq_true, beq_iff_eq, Bool.false_eq_true] at h ⊢
    exact ⟨⟨⟨h.1.1.1.symm, h.1.1.2.symm⟩, BEq.symm h.1.2⟩, sameAll_symm h.2⟩
  | .cyk _ _ xs, y, h => by
    cases y <;> simp only [same, Bool.and_eq_true, beq_iff_eq, Bool.false_eq_true] at h ⊢
    exact ⟨⟨h.1.1.symm, BEq.symm h.1.2⟩, sameAll_symm h.2⟩
  | .node _ _ _ _ xs, y, h => by
    cases y <;> simp only [same, Bool.and_eq_true, beq_iff_eq, Bool.false_eq_true] at h ⊢
    exact ⟨⟨⟨⟨BEq.symm h.1.1.1.1, BEq.symm h.1.1.1.2⟩, h.1.1.2.symm⟩, h.1.2.symm⟩, sameAll_symm h.2⟩

theorem sameAll_symm : ∀ {xs ys : List Item}, sameAll xs ys = true → sameAll ys xs = true
  | [], [], _ => rfl
  | x :: xs, y :: ys, h => by
    simp only [sameAll, Bool.and_eq_true] at h ⊢
    exact ⟨same_symm h.1, sameAll_symm h.2⟩

end

mutual

theorem same_trans : ∀ {x y z : Item}, same x y = true → same y z = true → same x z = true
  | .word _, y, z, h, h' => by cases y <;> cases z <;> simp_all [same]
  | .bare .., y, z, h, h' => by
    cases y <;> simp only [same, Bool.and_eq_true, beq_iff_eq, Bool.false_eq_true] at h
    cases z <;> simp only [same, Bool.and_eq_true, beq_iff_eq, Bool.false_eq_true] at h' ⊢
    exact ⟨⟨⟨h.1.1.1.trans h'.1.1.1, BEq.trans h.1.1.2 h'.1.1.2⟩, BEq.trans h.1.2 h'.1.2⟩, BEq.trans h.2 h'.2⟩
  | .earley _ _ _ xs, y, z, h, h' => by
    cases y <;> simp only [same, Bool.and_eq_true, beq_iff_eq, Bool.false_eq_true] at h
    cases z <;> simp only [same, Bool.and_eq_true, beq_iff_eq, Bool.false_eq_true] at h' ⊢
    exact ⟨⟨⟨h.1.1.1.trans h'.1.1.1, h.1.1.2.trans h'.1.1.2⟩, BEq.trans h.1.2 h'.1.2⟩, sameAll_trans h.2 h'.2⟩
  | .cyk _ _ xs, y, z, h, h' => by
    cases y <;> simp only [same, Bool.and_eq_true, beq_iff_eq, Bool.false_eq_true] at h
    cases z <;> simp only [same, Bool.and_eq_true, beq_iff_eq, Bool.false_eq_true] at h' ⊢
    exact ⟨⟨h.1.1.trans h'.1.1, BEq.trans h.1.2 h'.1.2⟩, sameAll_trans h.2 h'.2⟩
  | .node _ _ _ _ xs, y, z, h, h' => by
    cases y <;> simp only [same, Bool.and_eq_true, beq_iff_eq, Bool.false_eq_true] at h
    cases z <;> simp only [same, Bool.and_eq_true, beq_iff_eq, Bool.false_eq_true] at h' ⊢
    exact ⟨⟨⟨⟨BEq.trans h.1.1.1.1 h'.1.1.1.1, BEq.trans h.1.1.1.2 h'.1.1.1.2⟩, h.1.1.2.trans h'.1.1.2⟩,
      h.1.2.trans h'.1.2⟩, sameAll_trans h.2 h'.2⟩

theorem sameAll_trans : ∀ {xs ys zs : List Item}, sameAll xs ys = true → sameAll ys zs = true →
    sameAll xs zs = true
  | [], [], [], _, _ => rfl
  | x :: xs, y :: ys, z :: zs, h, h' => by
    simp only [sameAll, Bool.and_eq_true] at h h' ⊢
    exact ⟨same_trans h.1 h'.1, sameAll_trans h.2 h'.2⟩

end

/-- The answer to `same x y`, known at once where both are one object. -/
def cutShort (x y : Item) (answer : Unit → { b : Bool // b = same x y }) : { b : Bool // b = same x y } :=
  ⟨withPtrEq x y (fun _ => (answer ()).1) (fun h => by rw [(answer ()).2, h, same_refl]), (answer ()).2⟩

/-! Items share descendants, so a comparison that followed every path could take exponential time. -/

mutual

def compare : (x y : Item) → { b : Bool // b = same x y }
  | .earley r d p xs, .earley r' d' p' ys =>
    ⟨r == r' && d == d' && p == p' && (compareAll xs ys).1, by rw [same, (compareAll xs ys).2]⟩
  | .cyk r p xs, .cyk r' p' ys => ⟨r == r' && p == p' && (compareAll xs ys).1, by rw [same, (compareAll xs ys).2]⟩
  | .node i p r c xs, .node i' p' r' c' ys =>
    ⟨i == i' && p == p' && r == r' && c == c' && (compareAll xs ys).1, by rw [same, (compareAll xs ys).2]⟩
  | x, y => ⟨same x y, rfl⟩

def compareAll : (xs ys : List Item) → { b : Bool // b = sameAll xs ys }
  | x :: xs, y :: ys =>
    ⟨(cutShort x y fun _ => compare x y).1 && (compareAll xs ys).1, by
      rw [sameAll, (cutShort x y fun _ => compare x y).2, (compareAll xs ys).2]⟩
  | xs, ys => ⟨sameAll xs ys, rfl⟩

end

instance : BEq Item := ⟨fun x y => (cutShort x y fun _ => compare x y).1⟩

theorem beq_eq_same (x y : Item) : (x == y) = same x y := (cutShort x y fun _ => compare x y).2

instance : EquivBEq Item where
  rfl := by simp only [beq_eq_same]; exact same_refl _
  symm := by simp only [beq_eq_same]; exact same_symm
  trans := by simp only [beq_eq_same]; exact same_trans

/-- A dotted rule is named with its dot and span, a constituent by its symbol and span alone. -/
def id? : Item → Option Value
  | .word _ => none
  | .earley r d p _ =>
    some (.text ("Earley(" ++ r.display ++ ", " ++ d.repr ++ ", " ++ p.start.display ++ ", " ++ p.stop.display ++ ")"))
  | .cyk r p _ => some (.text ("CYK(" ++ r.lhs ++ ", " ++ p.start.display ++ ", " ++ p.stop.display ++ ")"))
  | .node i .. => some i
  | .bare _ i .. => i

def start? : Item → Option Value
  | .word _ => none
  | .earley _ _ p _ | .cyk _ p _ | .node _ p .. => some p.start
  | .bare _ _ start _ => start

def stop? : Item → Option Value
  | .word _ => none
  | .earley _ _ p _ | .cyk _ p _ | .node _ p .. => some p.stop
  | .bare _ _ _ stop => stop

def rule? : Item → Option Rule
  | .earley r .. | .cyk r .. | .node _ _ r .. => some r
  | _ => none

def kind? : Item → Option Kind
  | .earley .. => some .earley
  | .cyk .. => some .cyk
  | _ => none

def isComplete? : Item → Option Bool
  | .earley r d .. => some (r.rhs.length ≤ d)
  | .cyk .. => some true
  | .node _ _ _ complete _ => some complete
  | _ => none

/-- Move the dot over a child that reaches to `stop`. -/
def advance? (x child : Item) (stop : Value) : Option Item :=
  match x with
  | .earley r d p xs => some (.earley r (d + 1) ⟨p.start, stop⟩ (xs ++ [child]))
  | _ => none

mutual

/-- The tree of an item as a child; none where a descendant is of another parser. -/
def subtree? : Item → Option Tree
  | .word text => some (.word text)
  | .earley r _ _ xs | .cyk r _ xs => (subtrees? xs).map (.node r.lhs)
  | _ => none

def subtrees? : List Item → Option (List Tree)
  | [] => some []
  | x :: xs => (subtree? x).bind fun t => (subtrees? xs).map (t :: ·)

end

def tree? : Item → Option Tree
  | .word _ => none
  | x => x.subtree?

/-- Where the dot is shown: a negative one counts from the end, and both ends hold it. -/
def shownDot (d : Int) (count : Nat) : Nat :=
  if d < 0 then (d + count).toNat else min d.toNat count

/-- Items of other parsers have no text of their own. -/
def display? : Item → Option String
  | .word text => some text
  | .earley r d p _ =>
    let dot := shownDot d r.rhs.length
    let symbols := r.rhs.take dot ++ "•" :: r.rhs.drop dot
    some (r.lhs ++ " -> " ++ " ".intercalate symbols ++ " " ++ p.display)
  | .cyk r p _ => some (r.display ++ " " ++ p.display)
  | .node .. => none
  | .bare .. => some "<raw>"

/-- The form in messages; only words and bare objects can lack an id or a span. -/
def shown : Item → String
  | .word text => Text.quoted text
  | x => x.display?.getD ""

/-- Equal items have equal ends. -/
theorem ends_beq {x y : Item} (h : (x == y) = true) : (x.start? == y.start?) = true ∧ (x.stop? == y.stop?) = true := by
  rw [beq_eq_same] at h
  cases x <;> cases y <;> simp only [same, Bool.and_eq_true, Bool.false_eq_true, Span.beq_def] at h
  case word.word => exact ⟨rfl, rfl⟩
  case earley.earley => exact h.1.2
  case cyk.cyk => exact h.1.2
  case node.node => exact h.1.1.1.2
  case bare.bare => exact ⟨h.1.2, h.2⟩

instance : ChartItem Item where
  id? := id?
  start? := start?
  stop? := stop?
  rule? := rule?
  kind? := kind?
  isComplete? := isComplete?
  tree? := tree?
  shown := shown
  start_beq h := (ends_beq h).1
  stop_beq h := (ends_beq h).2

end Item

end ParseChart
