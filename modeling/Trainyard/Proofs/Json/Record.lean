import Trainyard.Json.Decode

/-!
# Records are taken apart as they were put together

An object with all the fields of a record, each once, gives back the value of every
field. Items of an array are read one by one, and one that cannot be read spoils all.
-/

set_option autoImplicit false

namespace Trainyard.Json

section Lists

variable {α β : Type}

theorem mapM_eq_ite {f : α → Option β} {g : α → β} {P : α → Prop} [DecidablePred P]
    (xs : List α) (h : ∀ x ∈ xs, f x = if P x then some (g x) else none) :
    xs.mapM f = if ∀ x ∈ xs, P x then some (xs.map g) else none := by
  induction xs with
  | nil => simp
  | cons x xs ih =>
    have hx := h x (by simp)
    have hxs := ih fun y hy => h y (by simp [hy])
    by_cases hp : P x
    · by_cases hall : ∀ y ∈ xs, P y
      · have hboth : ∀ y ∈ x :: xs, P y := List.forall_mem_cons.2 ⟨hp, hall⟩
        rw [if_pos hall] at hxs
        rw [if_pos hboth, List.mapM_cons, hx, if_pos hp, hxs]
        rfl
      · simp [List.mapM_cons, hx, hxs, hp, hall]
    · simp [List.mapM_cons, hx, hp]

theorem mapM_eq_some {f : α → Option β} {g : α → β} (xs : List α)
    (h : ∀ x ∈ xs, f x = some (g x)) : xs.mapM f = some (xs.map g) := by
  have hall : ∀ x ∈ xs, f x = if True then some (g x) else none := by simpa using h
  simpa using mapM_eq_ite xs hall

end Lists

namespace Fields

theorem member?_of_mem {fields : List (String × Value)} (hn : (fields.map Prod.fst).Nodup)
    {name : String} {v : Value} (h : (name, v) ∈ fields) :
    member? name fields = some (some v) := by
  have hfilter : fields.filter (·.1 = name) = [(name, v)] := by
    induction fields with
    | nil => simp at h
    | cons f fields ih =>
      obtain ⟨hf, hfs⟩ := List.nodup_cons.1 hn
      rcases List.mem_cons.1 h with rfl | h
      · have hnone : fields.filter (·.1 = name) = [] := by
          refine List.filter_eq_nil_iff.2 fun g hg he => hf ?_
          exact List.mem_map.2 ⟨g, hg, by simpa using he⟩
        simp [hnone]
      · have hne : f.1 ≠ name := fun he => hf (List.mem_map.2 ⟨(name, v), h, he.symm⟩)
        simp [hne, ih hfs h]
  simp [member?, hfilter]

theorem ofValue?_record {names : List String} (fields : List (String × Value))
    (hnames : fields.map Prod.fst = names) (hn : names.Nodup) (room : Nat) :
    ofValue? names (room + 1) (.record fields) =
      some (.named (fields.map fun f => some f.2)) := by
  subst hnames
  have hmembers : (fields.map fun f => (some f.1, f.2)).mapM
      (fun m : Option String × Value => do some (← m.1, m.2)) = some fields := by
    rw [List.mapM_map, mapM_eq_some (g := id) fields fun f _ => by simp, List.map_id]
  have hvalues : (fields.map Prod.fst).mapM (fun name => member? name fields) =
      some (fields.map fun f => some f.2) := by
    rw [List.mapM_map]
    exact mapM_eq_some fields fun f hf => member?_of_mem hn hf
  rw [Value.record, ofValue?, hmembers]
  show ((fields.map Prod.fst).mapM (fun name => member? name fields)).bind _ = _
  rw [hvalues]
  rfl

end Fields

namespace Value

theorem asTexts?_record (fields : List (String × String)) (room : Nat) :
    asTexts? (room + 1) (.record (fields.map fun f => (f.1, .text f.2))) = some fields := by
  rw [record, asTexts?, List.map_map, List.mapM_map,
    mapM_eq_some (g := id) fields fun f _ => by simp [asText?, text], List.map_id]

theorem natural?_toDigits {n : Nat} (h : n < UInt32.size) : natural? (Nat.toDigits 10 n) = some n := by
  have hlength : (Nat.toDigits 10 n).length ≤ 10 :=
    (Nat.length_toDigits_le_iff (by decide) (by decide)).2 (Nat.lt_of_lt_of_le h (by decide))
  have hdigits : (Nat.toDigits 10 n).all (fun c => '0' ≤ c ∧ c ≤ '9') = true := by
    refine List.all_eq_true.2 fun c hc => ?_
    have hdigit := Nat.isDigit_of_mem_toDigits (by decide) (by decide) hc
    simpa [Char.isDigit, Char.le_def] using hdigit
  have hvalue : decimal (Nat.toDigits 10 n) = n := Nat.ofDigitChars_ten_toDigits
  rw [natural?, if_pos ⟨hlength, hdigits⟩, hvalue]

theorem asWord?_nat (w : UInt32) : asWord? (nat w.toNat) = some w := by
  simp [asWord?, nat, natural?_toDigits w.toNat_lt_size, w.toNat_lt_size]

theorem asOptional?_textOrNull (s : Option String) : asOptional? asText? (textOrNull s) = some s := by
  cases s with
  | none => rfl
  | some s => rfl

end Value

end Trainyard.Json
