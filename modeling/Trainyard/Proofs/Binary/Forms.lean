import Trainyard.Proofs.Binary

/-!
# What the compact notation accepts

The writer has one form for each number and text, and the readers take more: a number may stand in
any of the forms that are wide enough for it. Each reader here takes a form of its values from the
front, and nothing that is no such form.
-/

set_option autoImplicit false

namespace Trainyard

namespace Bytes

theorem littleEndian_toNat (b : Bytes) : littleEndian b.length (toNat b) = b := by
  induction b with
  | nil => rfl
  | cons x r ih =>
    have hx : x.toNat < 256 := x.toNat_lt
    rw [List.length_cons, littleEndian, toNat, Nat.add_mul_mod_self_left,
      Nat.add_mul_div_left _ _ (by decide), Nat.mod_eq_of_lt hx, Nat.div_eq_of_lt hx, Nat.zero_add,
      ih]
    simp

theorem toNat_lt (b : Bytes) : toNat b < Nat.pow 256 b.length := by
  have hvalue := toNat_littleEndian b.length (toNat b)
  rw [littleEndian_toNat] at hvalue
  rw [hvalue]
  exact Nat.mod_lt _ (Nat.pow_pos (by decide))

end Bytes

namespace Binary

/-- The forms in which a number may stand: alone in a byte, or after a mark in two, four or, where
so many are allowed, eight bytes, the least significant first. -/
inductive NumberForm (wide : Bool) : Nat → Bytes → Prop
  | one {m : UInt8} (hm : m < 251) : NumberForm wide m.toNat [m]
  | two {b : Bytes} (hb : b.length = 2) : NumberForm wide (Bytes.toNat b) (251 :: b)
  | four {b : Bytes} (hb : b.length = 4) : NumberForm wide (Bytes.toNat b) (252 :: b)
  | eight {b : Bytes} (hb : b.length = 8) (hwide : wide = true) :
      NumberForm wide (Bytes.toNat b) (253 :: b)

inductive TextForm (s : String) : Bytes → Prop
  | mk {size : Bytes} (hsize : NumberForm true (Bytes.ofText s).length size) :
      TextForm s (size ++ Bytes.ofText s)

def Reads {α : Type} (read : Reader α) (form : α → Bytes → Prop) : Prop :=
  ∀ b a rest, read b = some (a, rest) ↔ ∃ front, form a front ∧ b = front ++ rest

theorem bytes_eq_some_iff {k : Nat} {b front rest : Bytes} :
    bytes k b = some (front, rest) ↔ front.length = k ∧ b = front ++ rest := by
  constructor
  · intro h
    dsimp only [bytes] at h
    split at h
    next hlength =>
      cases h
      exact ⟨hlength, (List.take_append_drop k b).symm⟩
    next => cases h
  · rintro ⟨rfl, rfl⟩
    exact bytes_append front rest

theorem bytes_eq_none_iff {k : Nat} {b : Bytes} : bytes k b = none ↔ b.length < k := by
  simp only [bytes, List.length_take]
  split <;> simp <;> omega

theorem exists_of_map_bytes {k n : Nat} {b rest : Bytes}
    (h : (bytes k b).map (fun (b, r) => (Bytes.toNat b, r)) = some (n, rest)) :
    ∃ front, front.length = k ∧ Bytes.toNat front = n ∧ b = front ++ rest := by
  obtain ⟨⟨front, r⟩, hfront, hpair⟩ := Option.map_eq_some_iff.1 h
  cases hpair
  obtain ⟨hlength, hb⟩ := bytes_eq_some_iff.1 hfront
  exact ⟨front, hlength, rfl, hb⟩

theorem map_bytes_of_length {k : Nat} {b : Bytes} (hb : b.length = k) (rest : Bytes) :
    (bytes k (b ++ rest)).map (fun (b, r) => (Bytes.toNat b, r)) = some (Bytes.toNat b, rest) := by
  rw [bytes_eq_some_iff.2 ⟨hb, rfl⟩]
  rfl

theorem numberForm_of_readNat {wide : Bool} {b rest : Bytes} {n : Nat}
    (h : readNat wide b = some (n, rest)) : ∃ front, NumberForm wide n front ∧ b = front ++ rest := by
  cases b with
  | nil => simp [readNat] at h
  | cons m r =>
    rw [readNat] at h
    split at h
    next hm =>
      cases h
      exact ⟨[m], .one hm, rfl⟩
    next =>
      split at h
      next hm =>
        obtain ⟨front, hlength, rfl, rfl⟩ := exists_of_map_bytes h
        exact ⟨251 :: front, .two hlength, by rw [hm]; rfl⟩
      next =>
        split at h
        next hm =>
          obtain ⟨front, hlength, rfl, rfl⟩ := exists_of_map_bytes h
          exact ⟨252 :: front, .four hlength, by rw [hm]; rfl⟩
        next =>
          split at h
          next hm =>
            obtain ⟨front, hlength, rfl, rfl⟩ := exists_of_map_bytes h
            exact ⟨253 :: front, .eight hlength hm.2, by rw [hm.1]; rfl⟩
          next => cases h

theorem readNat_of_numberForm {wide : Bool} {n : Nat} {front : Bytes} (h : NumberForm wide n front)
    (rest : Bytes) : readNat wide (front ++ rest) = some (n, rest) := by
  cases h with
  | one hm => simp [readNat, hm]
  | two hb => simp [readNat, map_bytes_of_length hb rest]
  | four hb => simp [readNat, map_bytes_of_length hb rest]
  | eight hb hwide => simp [readNat, hwide, map_bytes_of_length hb rest]

theorem reads_readNat (wide : Bool) : Reads (readNat wide) (NumberForm wide) := by
  intro b n rest
  refine ⟨numberForm_of_readNat, ?_⟩
  rintro ⟨front, hform, rfl⟩
  exact readNat_of_numberForm hform rest

theorem reads_readText : Reads readText TextForm := by
  intro b s rest
  constructor
  · intro h
    obtain ⟨⟨n, b₁⟩, hsize, h⟩ := Option.bind_eq_some_iff.1 h
    obtain ⟨⟨spelled, b₂⟩, hbytes, h⟩ := Option.bind_eq_some_iff.1 h
    obtain ⟨text, htext, h⟩ := Option.bind_eq_some_iff.1 h
    cases h
    obtain ⟨size, hform, rfl⟩ := numberForm_of_readNat hsize
    obtain ⟨hlength, rfl⟩ := bytes_eq_some_iff.1 hbytes
    have hspelled := Bytes.ofText_of_toText? htext
    rw [← hspelled] at hlength ⊢
    refine ⟨size ++ Bytes.ofText s, .mk ?_, (List.append_assoc _ _ _).symm⟩
    rwa [hlength]
  · rintro ⟨front, ⟨hsize⟩, rfl⟩
    rw [List.append_assoc, readText, readLength, readNat_of_numberForm hsize]
    simp [bytes_append, Bytes.toText?_ofText]

end Binary

end Trainyard
