/-!
# Series

A list that grows at its end. The items are kept with the latest one first, so
that adding one takes a single step however long the series is; `toList` gives
them in the order they were added.
-/

set_option autoImplicit false

namespace Trainyard

structure Series (α : Type) where
  latest : List α
  deriving DecidableEq

namespace Series

variable {α : Type}

def empty : Series α := ⟨[]⟩

def ofList (xs : List α) : Series α := ⟨xs.reverse⟩

def toList (s : Series α) : List α := s.latest.reverse

def push (s : Series α) (a : α) : Series α := ⟨a :: s.latest⟩

def reverse (s : Series α) : Series α := ⟨s.latest.reverse⟩

def size (s : Series α) : Nat := s.latest.length

def count (s : Series α) (p : α → Bool) : Nat := s.latest.countP p

def any (s : Series α) (p : α → Bool) : Bool := s.latest.any p

@[simp] theorem toList_empty : (empty : Series α).toList = [] := rfl

@[simp] theorem toList_ofList (xs : List α) : (ofList xs).toList = xs := by simp [toList, ofList]

@[simp] theorem ofList_toList (s : Series α) : ofList s.toList = s := by simp [toList, ofList]

@[simp] theorem toList_push (s : Series α) (a : α) : (s.push a).toList = s.toList ++ [a] := by
  simp [toList, push]

theorem count_eq_countP (s : Series α) (p : α → Bool) : s.count p = s.toList.countP p := by
  simp [count, toList]

theorem any_eq_any (s : Series α) (p : α → Bool) : s.any p = s.toList.any p := by
  simp [any, toList]

end Series

end Trainyard
