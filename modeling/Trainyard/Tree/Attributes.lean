import Trainyard.Ordered

/-!
# Attributes

Texts by key, in the order of the keys. The order is part of the type, so two
collections with the same entries are equal.
-/

set_option autoImplicit false

namespace Trainyard

@[ext] structure Attributes where
  entries : List (String × String)
  sorted : entries.Pairwise fun a b => a.1 < b.1
  deriving DecidableEq

namespace Attributes

def empty : Attributes := ⟨[], .nil⟩

def insert (a : Attributes) (key value : String) : Attributes :=
  ⟨Ordered.insert key value a.entries, Ordered.pairwise_insert key value a.entries a.sorted⟩

def erase (a : Attributes) (key : String) : Attributes :=
  ⟨a.entries.filter (·.1 ≠ key), a.sorted.filter _⟩

def get? (a : Attributes) (key : String) : Option String := a.entries.lookup key

theorem get?_insert (a : Attributes) (key value other : String) :
    (a.insert key value).get? other = if other = key then some value else a.get? other :=
  Ordered.lookup_insert key other value a.entries

def ofList (pairs : List (String × String)) : Attributes :=
  pairs.foldl (fun a p => a.insert p.1 p.2) empty

theorem entries_foldl_insert (pairs : List (String × String)) (a : Attributes)
    (h : (a.entries ++ pairs).Pairwise fun p q => p.1 < q.1) :
    (pairs.foldl (fun a p => a.insert p.1 p.2) a).entries = a.entries ++ pairs := by
  induction pairs generalizing a with
  | nil => simp
  | cons p pairs ih =>
    have hlast : ∀ e ∈ a.entries, e.1 < p.1 :=
      fun e he => (List.pairwise_append.1 h).2.2 e he p (by simp)
    have hins : (a.insert p.1 p.2).entries = a.entries ++ [p] :=
      Ordered.insert_of_forall_lt hlast p.2
    rw [List.foldl_cons, ih _ (by simpa [hins] using h), hins, List.append_assoc]
    rfl

theorem ofList_entries (a : Attributes) : ofList a.entries = a := by
  have h := entries_foldl_insert a.entries empty a.sorted
  cases a with
  | mk entries sorted => simpa [ofList, empty, Attributes.ext_iff] using h

end Attributes

end Trainyard
