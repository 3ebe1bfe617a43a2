/-!
# Splitting at a separator

The parts of a text between the occurrences of one character, the empty ones
included, so that a text with `n` separators has `n + 1` parts.
-/

set_option autoImplicit false

namespace Trainyard.Text

def prepend (sep c : Char) : List (List Char) → List (List Char)
  | [] => [[c]]
  | p :: ps => if c = sep then [] :: p :: ps else (c :: p) :: ps

def split (sep : Char) (cs : List Char) : List (List Char) := cs.foldr (prepend sep) [[]]

def parts (sep : Char) (s : String) : List String := (split sep s.toList).map String.ofList

theorem split_cons (sep c : Char) (r : List Char) :
    split sep (c :: r) = prepend sep c (split sep r) := rfl

theorem split_ne_nil (sep : Char) (cs : List Char) : split sep cs ≠ [] := by
  cases cs with
  | nil => simp [split]
  | cons c r =>
    rw [split_cons]
    cases split sep r with
    | nil => simp [prepend]
    | cons p ps =>
      rw [prepend]
      split <;> simp

theorem split_cons_self (sep : Char) (r : List Char) : split sep (sep :: r) = [] :: split sep r := by
  rw [split_cons]
  cases h : split sep r with
  | nil => exact absurd h (split_ne_nil sep r)
  | cons p ps => simp [prepend]

theorem split_append (sep : Char) (xs ys : List Char) :
    split sep (xs ++ sep :: ys) = split sep xs ++ split sep ys := by
  induction xs with
  | nil => exact split_cons_self sep ys
  | cons c r ih =>
    rw [List.cons_append, split_cons, split_cons, ih]
    cases h : split sep r with
    | nil => exact absurd h (split_ne_nil sep r)
    | cons p ps => by_cases hc : c = sep <;> simp [prepend, hc]

theorem split_of_not_mem (sep : Char) (xs : List Char) (h : sep ∉ xs) : split sep xs = [xs] := by
  induction xs with
  | nil => rfl
  | cons c r ih =>
    have hc : c ≠ sep := fun e => h (by simp [e])
    rw [split_cons, ih (fun m => h (List.mem_cons_of_mem _ m))]
    simp [prepend, hc]

end Trainyard.Text
