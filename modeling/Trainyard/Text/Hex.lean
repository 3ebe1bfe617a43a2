import Trainyard.Bytes

/-!
# Hexadecimal text

Bytes are written as two lower case digits each. Reading takes digits of either
case and nothing else.
-/

set_option autoImplicit false

namespace Trainyard.Text.Hex

def digit (n : Nat) : Char :=
  if n < 10 then Char.ofNat (48 + n) else Char.ofNat (87 + n)

def value? (c : Char) : Option Nat :=
  if '0' ≤ c ∧ c ≤ '9' then some (c.toNat - 48)
  else if 'a' ≤ c ∧ c ≤ 'f' then some (c.toNat - 87)
  else if 'A' ≤ c ∧ c ≤ 'F' then some (c.toNat - 55)
  else none

def encode : Bytes → List Char
  | [] => []
  | b :: r => digit (b.toNat / 16) :: digit (b.toNat % 16) :: encode r

def decode : List Char → Option Bytes
  | [] => some []
  | [_] => none
  | h :: l :: r =>
    match value? h, value? l, decode r with
    | some a, some b, some bs => some (UInt8.ofNat (16 * a + b) :: bs)
    | _, _, _ => none

def number? (cs : List Char) : Option Nat :=
  cs.foldl (fun n c => match n, value? c with
    | some n, some d => some (16 * n + d)
    | _, _ => none) (some 0)

theorem length_encode (b : Bytes) : (encode b).length = 2 * b.length := by
  induction b with
  | nil => rfl
  | cons b r ih => simp [encode, ih]; omega

theorem value?_digit (n : Nat) (h : n < 16) : value? (digit n) = some n := by
  have all : ∀ n : Fin 16, value? (digit n.val) = some n.val := by decide
  exact all ⟨n, h⟩

theorem decode_encode (b : Bytes) : decode (encode b) = some b := by
  induction b with
  | nil => rfl
  | cons b r ih =>
    have hb : b.toNat < 256 := b.toNat_lt
    rw [encode, decode, value?_digit _ (by omega), value?_digit _ (by omega), ih]
    have whole : UInt8.ofNat (16 * (b.toNat / 16) + b.toNat % 16) = b := by
      rw [Nat.div_add_mod]
      simp
    simp [whole]

end Trainyard.Text.Hex
