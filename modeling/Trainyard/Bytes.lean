/-!
# Byte strings

Payloads and encoded trees are lists of bytes. Text enters and leaves them as
UTF-8, and in files they are packed into arrays.
-/

set_option autoImplicit false

namespace Trainyard

abbrev Bytes := List UInt8

namespace Bytes

def pack (b : Bytes) : ByteArray := ⟨b.toArray⟩

def unpack (a : ByteArray) : Bytes := a.data.toList

theorem unpack_pack (b : Bytes) : unpack b.pack = b := by simp [pack, unpack]

theorem pack_unpack (a : ByteArray) : pack (unpack a) = a := by simp [pack, unpack]

def ofText (s : String) : Bytes := unpack s.toUTF8

def toText? (b : Bytes) : Option String := String.fromUTF8? b.pack

theorem fromUTF8?_toUTF8 (s : String) : String.fromUTF8? s.toUTF8 = some s := by
  have h : s.toUTF8.IsValidUTF8 := s.isValidUTF8
  rw [String.fromUTF8?, dif_pos h]
  rfl

theorem toText?_ofText (s : String) : toText? (ofText s) = some s := by
  rw [toText?, ofText, pack_unpack, fromUTF8?_toUTF8]

theorem ofText_of_toText? {b : Bytes} {s : String} (h : toText? b = some s) : ofText s = b := by
  rw [toText?, String.fromUTF8?] at h
  split at h
  next hv =>
    cases h
    simp [ofText, String.fromUTF8, unpack_pack]
  next => simp at h

def littleEndian : Nat → Nat → Bytes
  | 0, _ => []
  | k + 1, n => UInt8.ofNat (n % 256) :: littleEndian k (n / 256)

def toNat : Bytes → Nat
  | [] => 0
  | b :: r => b.toNat + 256 * toNat r

theorem length_littleEndian (k n : Nat) : (littleEndian k n).length = k := by
  induction k generalizing n with
  | zero => rfl
  | succ k ih => simp [littleEndian, ih]

theorem toNat_littleEndian (k n : Nat) : toNat (littleEndian k n) = n % Nat.pow 256 k := by
  induction k generalizing n with
  | zero => simp [littleEndian, toNat, Nat.mod_one]
  | succ k ih =>
    rw [littleEndian, toNat, ih, Nat.pow_eq, Nat.pow_eq, Nat.pow_succ, Nat.mul_comm (256 ^ k) 256,
      Nat.mod_mul]
    simp

end Bytes

end Trainyard
