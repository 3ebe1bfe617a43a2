import Trainyard.Digest

/-!
# Digits that spell bytes

Hexadecimal text has two digits for each byte, and a digit may be of either case. The reader takes
such texts and no others, and a digest is spelled by 32 digits.
-/

set_option autoImplicit false

namespace Trainyard

namespace Text.Hex

def IsDigit (n : Nat) (c : Char) : Prop := n < 16 ∧ (c = digit n ∨ c = (digit n).toUpper)

theorem isDigit_of_row {c : Char} {n start count : Nat}
    (hrow : ∀ k : Fin count, IsDigit (n + k.val) (Char.ofNat (start + k.val)))
    (hfirst : start ≤ c.toNat) (hlast : c.toNat < start + count) :
    IsDigit (n + (c.toNat - start)) c := by
  have hdigit := hrow ⟨c.toNat - start, by omega⟩
  rwa [show start + (c.toNat - start) = c.toNat by omega, Char.ofNat_toNat] at hdigit

theorem isDigit_of_value? {c : Char} {n : Nat} (h : value? c = some n) : IsDigit n c := by
  have hnumerals : ∀ k : Fin 10, IsDigit (0 + k.val) (Char.ofNat (48 + k.val)) := by
    unfold IsDigit
    decide
  have hsmall : ∀ k : Fin 6, IsDigit (10 + k.val) (Char.ofNat (97 + k.val)) := by
    unfold IsDigit
    decide
  have hcapitals : ∀ k : Fin 6, IsDigit (10 + k.val) (Char.ofNat (65 + k.val)) := by
    unfold IsDigit
    decide
  rw [value?] at h
  split at h
  next hrange =>
    have hlow : 48 ≤ c.toNat := hrange.1
    have hhigh : c.toNat ≤ 57 := hrange.2
    have hdigit := isDigit_of_row hnumerals hlow (by omega)
    rwa [show 0 + (c.toNat - 48) = n from (Nat.zero_add _).trans (Option.some.inj h)] at hdigit
  next =>
    split at h
    next hrange =>
      have hlow : 97 ≤ c.toNat := hrange.1
      have hhigh : c.toNat ≤ 102 := hrange.2
      have hn : c.toNat - 87 = n := Option.some.inj h
      have hdigit := isDigit_of_row hsmall hlow (by omega)
      rwa [show 10 + (c.toNat - 97) = n by omega] at hdigit
    next =>
      split at h
      next hrange =>
        have hlow : 65 ≤ c.toNat := hrange.1
        have hhigh : c.toNat ≤ 70 := hrange.2
        have hn : c.toNat - 55 = n := Option.some.inj h
        have hdigit := isDigit_of_row hcapitals hlow (by omega)
        rwa [show 10 + (c.toNat - 65) = n by omega] at hdigit
      next => simp at h

theorem value?_eq_some_iff {c : Char} {n : Nat} : value? c = some n ↔ IsDigit n c := by
  refine ⟨isDigit_of_value?, ?_⟩
  rintro ⟨hn, rfl | rfl⟩
  · exact value?_digit n hn
  · have hall : ∀ k : Fin 16, value? (digit k.val).toUpper = some k.val := by decide
    exact hall ⟨n, hn⟩

inductive Spells : List Char → Bytes → Prop
  | nil : Spells [] []
  | cons {high low : Char} {cs : List Char} {b : UInt8} {bs : Bytes}
      (hhigh : IsDigit (b.toNat / 16) high) (hlow : IsDigit (b.toNat % 16) low)
      (hrest : Spells cs bs) : Spells (high :: low :: cs) (b :: bs)

theorem Spells.cons_digits {x y : Nat} {high low : Char} {cs : List Char} {b : Bytes}
    (hx : IsDigit x high) (hy : IsDigit y low) (h : Spells cs b) :
    Spells (high :: low :: cs) (UInt8.ofNat (16 * x + y) :: b) := by
  have hx' := hx.1
  have hy' := hy.1
  have hbyte : (UInt8.ofNat (16 * x + y)).toNat = 16 * x + y :=
    UInt8.toNat_ofNat_of_lt (show 16 * x + y < 256 by omega)
  refine .cons ?_ ?_ h
  · rwa [hbyte, show (16 * x + y) / 16 = x by omega]
  · rwa [hbyte, show (16 * x + y) % 16 = y by omega]

theorem spells_of_decode {cs : List Char} {b : Bytes} (h : decode cs = some b) : Spells cs b := by
  fun_induction decode cs generalizing b with
  | case1 => cases h; exact .nil
  | case2 => simp at h
  | case3 high low r x y bs hrest hlow hhigh ih =>
    cases h
    exact .cons_digits (value?_eq_some_iff.1 hhigh) (value?_eq_some_iff.1 hlow) (ih hrest)
  | case4 => simp at h

theorem decode_of_spells {cs : List Char} {b : Bytes} (h : Spells cs b) : decode cs = some b := by
  induction h with
  | nil => rfl
  | @cons high low cs b bs hhigh hlow _ ih =>
    have hwhole : UInt8.ofNat (16 * (b.toNat / 16) + b.toNat % 16) = b := by
      rw [Nat.div_add_mod]
      simp
    rw [decode, value?_eq_some_iff.2 hhigh, value?_eq_some_iff.2 hlow, ih]
    simp [hwhole]

end Text.Hex

namespace Digest

/-- A text is read as the digest that it spells. -/
theorem ofHex_eq_ok_iff {text : String} {d : Digest} :
    ofHex text = .ok d ↔ Text.Hex.Spells text.toList d.bytes := by
  rw [ofHex]
  constructor
  · intro h
    split at h
    next b hdecode =>
      split at h
      next => cases h; exact Text.Hex.spells_of_decode hdecode
      next => cases h
    next => cases h
  · intro h
    rw [Text.Hex.decode_of_spells h]
    simp only [dif_pos d.size]

end Digest

end Trainyard
