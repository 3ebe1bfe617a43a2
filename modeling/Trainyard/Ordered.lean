/-!
# Ordered association lists

Values by name, kept in the order of the names. Names compare by code point,
which is also the order of their UTF-8 bytes.
-/

set_option autoImplicit false

namespace Trainyard.Ordered

variable {α : Type}

def insert (name : String) (value : α) : List (String × α) → List (String × α)
  | [] => [(name, value)]
  | e :: r =>
    if e.1 < name then e :: insert name value r
    else if name < e.1 then (name, value) :: e :: r
    else (name, value) :: r

theorem mem_insert {name : String} {value : α} {r : List (String × α)} {e : String × α}
    (h : e ∈ insert name value r) : e = (name, value) ∨ e ∈ r := by
  induction r with
  | nil => simpa [insert] using h
  | cons f r ih =>
    rw [insert] at h
    split at h
    · rcases List.mem_cons.1 h with rfl | h
      · simp
      · rcases ih h with h | h
        · exact .inl h
        · exact .inr (List.mem_cons_of_mem _ h)
    · split at h
      · simpa using h
      · rcases List.mem_cons.1 h with rfl | h
        · simp
        · exact .inr (List.mem_cons_of_mem _ h)

theorem pairwise_insert (name : String) (value : α) (r : List (String × α))
    (h : r.Pairwise fun a b => a.1 < b.1) :
    (insert name value r).Pairwise fun a b => a.1 < b.1 := by
  induction r with
  | nil => simp [insert]
  | cons e r ih =>
    have ⟨he, hr⟩ := List.pairwise_cons.1 h
    rw [insert]
    split
    next hlt =>
      refine List.pairwise_cons.2 ⟨fun b hb => ?_, ih hr⟩
      rcases mem_insert hb with rfl | hb
      · exact hlt
      · exact he b hb
    next hge =>
      split
      next hlt =>
        refine List.pairwise_cons.2 ⟨fun b hb => ?_, h⟩
        rcases List.mem_cons.1 hb with rfl | hb
        · exact hlt
        · exact String.lt_trans hlt (he b hb)
      next hle =>
        have heq : e.1 = name := String.le_antisymm hle hge
        refine List.pairwise_cons.2 ⟨fun b hb => ?_, hr⟩
        have := he b hb
        rwa [heq] at this

theorem insert_of_forall_lt {name : String} {r : List (String × α)} (h : ∀ e ∈ r, e.1 < name)
    (value : α) : insert name value r = r ++ [(name, value)] := by
  induction r with
  | nil => rfl
  | cons e r ih =>
    have hr : ∀ f ∈ r, f.1 < name := fun f hf => h f (List.mem_cons_of_mem _ hf)
    rw [insert, if_pos (h e (by simp)), ih hr, List.cons_append]

theorem lookup_insert (name other : String) (value : α) (r : List (String × α)) :
    (insert name value r).lookup other = if other = name then some value else r.lookup other := by
  induction r with
  | nil =>
    by_cases h : other = name
    · simp [insert, h]
    · simp [insert, List.lookup_cons, beq_false_of_ne h, h]
  | cons e r ih =>
    obtain ⟨k, v⟩ := e
    rw [insert]
    split
    next hlt =>
      rw [List.lookup_cons, List.lookup_cons, ih]
      by_cases h : other = name
      · have hne : other ≠ k := fun hk => String.lt_irrefl k (by rw [← hk, h] at hlt ⊢; exact hlt)
        rw [beq_false_of_ne hne]
      · simp [h]
    next hge =>
      split
      · by_cases h : other = name
        · simp [h]
        · rw [List.lookup_cons, beq_false_of_ne h, if_neg h]
      next hle =>
        have heq : k = name := String.le_antisymm hle hge
        by_cases h : other = name
        · simp [h]
        · rw [List.lookup_cons, List.lookup_cons, heq, beq_false_of_ne h, if_neg h]

end Trainyard.Ordered
