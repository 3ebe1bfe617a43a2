import Trainyard.Bytes

/-!
# The compact binary notation

A number below 251 is one byte. A larger one is a mark byte followed by two,
four or eight bytes, the least significant first; the writer takes the shortest
of these forms and the reader takes any. Texts and lists are a length and then
their content, so a value says itself where it ends: a writer puts its bytes in
front of any others, and the reader of the same kind gives those back.
-/

set_option autoImplicit false

namespace Trainyard.Binary

abbrev Reader (α : Type) := Bytes → Option (α × Bytes)

abbrev Writer (α : Type) := α → Bytes → Bytes

def nat : Writer Nat := fun n rest =>
  if n < 251 then UInt8.ofNat n :: rest
  else if n < UInt16.size then 251 :: (Bytes.littleEndian 2 n ++ rest)
  else if n < UInt32.size then 252 :: (Bytes.littleEndian 4 n ++ rest)
  else 253 :: (Bytes.littleEndian 8 n ++ rest)

def bytes (k : Nat) : Reader Bytes := fun b =>
  let front := b.take k
  if front.length = k then some (front, b.drop k) else none

def readNat (wide : Bool) : Reader Nat
  | [] => none
  | m :: r =>
    if m < 251 then some (m.toNat, r)
    else if m = 251 then (bytes 2 r).map fun (b, r) => (Bytes.toNat b, r)
    else if m = 252 then (bytes 4 r).map fun (b, r) => (Bytes.toNat b, r)
    else if m = 253 ∧ wide then (bytes 8 r).map fun (b, r) => (Bytes.toNat b, r)
    else none

theorem bytes_append (b rest : Bytes) : bytes b.length (b ++ rest) = some (b, rest) := by
  simp [bytes]

theorem map_bytes_littleEndian (k n : Nat) (rest : Bytes) (h : n < Nat.pow 256 k) :
    (bytes k (Bytes.littleEndian k n ++ rest)).map (fun (b, r) => (Bytes.toNat b, r)) =
      some (n, rest) := by
  have front := bytes_append (Bytes.littleEndian k n) rest
  rw [Bytes.length_littleEndian] at front
  have value := Bytes.toNat_littleEndian k n
  rw [Nat.mod_eq_of_lt h] at value
  simp [front, value]

/-- A written number is read back, and nothing after it is touched. The narrow reader knows the
forms of at most 32 bits. -/
theorem readNat_nat (wide : Bool) (n : Nat) (rest : Bytes)
    (h : n < if wide then UInt64.size else UInt32.size) : readNat wide (nat n rest) = some (n, rest) := by
  rw [nat]
  split
  next hn =>
    have hm : UInt8.ofNat n < 251 := by
      rw [UInt8.lt_iff_toNat_lt]
      simp
      omega
    simp [readNat, hm]
    omega
  next =>
    split
    next hn => simp [readNat, map_bytes_littleEndian 2 n rest hn]
    next =>
      split
      next hn => simp [readNat, map_bytes_littleEndian 4 n rest hn]
      next hn =>
        cases wide with
        | true => simp [readNat, map_bytes_littleEndian 8 n rest h]
        | false => exact absurd h hn

def readWord : Reader Nat := readNat false

def readLength : Reader Nat := readNat true

def text : Writer String := fun s rest =>
  let b := Bytes.ofText s
  nat b.length (b ++ rest)

/-- A text whose length announces more bytes than follow is unreadable, however many they are.
This assumes a decoder that sets nothing aside for a length before it has seen the bytes. -/
def readText : Reader String := fun b => do
  let (n, b) ← readLength b
  let (s, b) ← bytes n b
  some (← Bytes.toText? s, b)

theorem readText_text (s : String) (rest : Bytes) (h : (Bytes.ofText s).length < UInt64.size) :
    readText (text s rest) = some (s, rest) := by
  simp [readText, text, readLength, readNat_nat true _ _ h, bytes_append, Bytes.toText?_ofText]

def option {α : Type} (write : Writer α) : Writer (Option α)
  | none, rest => 0 :: rest
  | some a, rest => 1 :: write a rest

def readOption {α : Type} (read : Reader α) : Reader (Option α)
  | 0 :: r => some (none, r)
  | 1 :: r => (read r).map fun (a, r) => (some a, r)
  | _ => none

def list {α : Type} (write : Writer α) : Writer (List α) := fun xs rest =>
  nat xs.length (xs.foldr write rest)

def readMany {α : Type} (read : Reader α) : Nat → List α → Reader (List α)
  | 0, acc, b => some (acc.reverse, b)
  | n + 1, acc, b =>
    match read b with
    | some (a, b) => readMany read n (a :: acc) b
    | none => none

theorem readMany_foldr {α : Type} (write : Writer α) (read : Reader α) (xs acc : List α)
    (rest : Bytes) (h : ∀ x ∈ xs, ∀ tail, read (write x tail) = some (x, tail)) :
    readMany read xs.length acc (xs.foldr write rest) = some (acc.reverse ++ xs, rest) := by
  induction xs generalizing acc with
  | nil => simp [readMany]
  | cons x xs ih =>
    have hx := h x (by simp)
    have hxs : ∀ y ∈ xs, ∀ tail, read (write y tail) = some (y, tail) :=
      fun y hy => h y (by simp [hy])
    simp [readMany, hx, ih (x :: acc) hxs]

def readList {α : Type} (read : Reader α) : Reader (List α) := fun b => do
  let (n, b) ← readLength b
  readMany read n [] b

end Trainyard.Binary
