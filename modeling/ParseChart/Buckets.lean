/-!
# Buckets

Elements filed under keys. Buckets stand in the order in which their keys first came, and a bucket
keeps its elements in the order in which they were filed. Keys are told apart by `==` alone, and a
bucket's key is the first of its equals. `get` reads one bucket and `elems` all of them; `ofList`
files those elements of a list that have a key, and under a key then stands the sublist of that key.
-/

namespace ParseChart

structure Bucket (κ α : Type) where
  key : κ
  elems : List α
  deriving Repr

abbrev Buckets (κ α : Type) := List (Bucket κ α)

namespace Buckets

variable {κ α : Type} [BEq κ]

def add (key : κ) (x : α) : Buckets κ α → Buckets κ α
  | [] => [⟨key, [x]⟩]
  | b :: rest => if b.key == key then { b with elems := b.elems ++ [x] } :: rest else b :: add key x rest

def get (key : κ) : Buckets κ α → List α
  | [] => []
  | b :: rest => if b.key == key then b.elems else get key rest

def keys (bs : Buckets κ α) : List κ := bs.map (·.key)

def elems (bs : Buckets κ α) : List α := bs.flatMap (·.elems)

/-- File the elements that have a key. -/
def addAll (key? : α → Option κ) (xs : List α) (bs : Buckets κ α) : Buckets κ α :=
  xs.foldl (fun bs x => match key? x with | some key => add key x bs | none => bs) bs

def ofList (key? : α → Option κ) (xs : List α) : Buckets κ α := addAll key? xs []

theorem get_add [EquivBEq κ] (key key' : κ) (x : α) (bs : Buckets κ α) :
    get key' (add key x bs) = get key' bs ++ if key == key' then [x] else [] := by
  induction bs with
  | nil => cases h : key == key' <;> simp [add, get, h]
  | cons b rest ih =>
    by_cases hb : b.key == key
    · have hk : (b.key == key') = (key == key') := BEq.congr_left hb
      cases h : key == key' <;> simp [add, get, hb, hk, h]
    · by_cases hb' : b.key == key'
      · have h : (key == key') = false := by
          cases h : key == key' with
          | false => rfl
          | true => exact absurd (BEq.trans hb' (BEq.symm h)) hb
        simp [add, get, hb, hb', h]
      · simp [add, get, hb, hb', ih]

theorem elems_add_perm (key : κ) (x : α) (bs : Buckets κ α) : (elems (add key x bs)).Perm (elems bs ++ [x]) := by
  induction bs with
  | nil => simp [add, elems]
  | cons b rest ih =>
    by_cases h : b.key == key
    · simp only [add, h, elems, List.flatMap_cons, if_true, List.append_assoc]
      exact List.Perm.append_left _ List.perm_append_comm
    · simp only [add, h, elems, List.flatMap_cons, List.append_assoc]
      exact List.Perm.append_left _ ih

theorem get_addAll [EquivBEq κ] (key? : α → Option κ) (key : κ) (xs : List α) (bs : Buckets κ α) :
    get key (addAll key? xs bs) = get key bs ++ xs.filter (fun x => (key? x).any (· == key)) := by
  induction xs generalizing bs with
  | nil => simp [addAll]
  | cons x xs ih =>
    rw [addAll, List.foldl_cons, ← addAll, ih]
    cases hx : key? x with
    | none => simp [hx]
    | some k => cases h : k == key <;> simp [get_add, hx, h]

/-- What is filed under a key is, in order, what has that key. -/
theorem get_ofList [EquivBEq κ] (key? : α → Option κ) (key : κ) (xs : List α) :
    get key (ofList key? xs) = xs.filter (fun x => (key? x).any (· == key)) := get_addAll key? key xs []

end Buckets

end ParseChart
