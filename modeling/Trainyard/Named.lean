/-!
# Values by name

A list of named values in which no name occurs twice. A new name goes to the
front, and a name that is in use keeps its place.
-/

set_option autoImplicit false

namespace Trainyard.Named

variable {α : Type}

def replace (name : String) (value : α) : List (String × α) → List (String × α)
  | [] => []
  | e :: r => if e.1 = name then (name, value) :: r else e :: replace name value r

def put (r : List (String × α)) (name : String) (value : α) : List (String × α) :=
  match r.lookup name with
  | some _ => replace name value r
  | none => (name, value) :: r

def erase (r : List (String × α)) (name : String) : List (String × α) := r.filter (·.1 ≠ name)

theorem lookup_replace_of_ne {name other : String} (h : other ≠ name) (value : α)
    (r : List (String × α)) : (replace name value r).lookup other = r.lookup other := by
  induction r with
  | nil => rfl
  | cons e r ih =>
    obtain ⟨k, v⟩ := e
    rw [replace]
    split
    next hk =>
      have hk : k = name := hk
      rw [List.lookup_cons, List.lookup_cons, hk, beq_false_of_ne h]
    next => rw [List.lookup_cons, List.lookup_cons, ih]

theorem lookup_replace_self {name : String} {old : α} {r : List (String × α)}
    (h : r.lookup name = some old) (value : α) :
    (replace name value r).lookup name = some value := by
  induction r with
  | nil => simp at h
  | cons e r ih =>
    obtain ⟨k, v⟩ := e
    rw [replace]
    split
    next => simp
    next hk =>
      have hk : name ≠ k := fun e => hk e.symm
      rw [List.lookup_cons, beq_false_of_ne hk] at h ⊢
      exact ih h

theorem lookup_put (r : List (String × α)) (name other : String) (value : α) :
    (put r name value).lookup other = if other = name then some value else r.lookup other := by
  rw [put]
  by_cases h : other = name
  · subst h
    cases hl : r.lookup other with
    | none => simp
    | some old => simp [lookup_replace_self hl]
  · cases r.lookup name with
    | none => simp [List.lookup_cons, beq_false_of_ne h, h]
    | some _ => simp [lookup_replace_of_ne h, h]

end Trainyard.Named
