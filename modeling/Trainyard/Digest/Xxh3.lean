import Trainyard.Bytes

/-!
# The xxh3 digest of 128 bits

The keyed mixing of `xxh3` with its standard secret and seed zero. Inputs of up
to 16 bytes, up to 240 bytes and longer ones each have a procedure of their own;
all three end in a pair of words, the low one first.
-/

set_option autoImplicit false

namespace Trainyard.Digest.Xxh3

def secret : ByteArray := ⟨#[
  0xb8, 0xfe, 0x6c, 0x39, 0x23, 0xa4, 0x4b, 0xbe, 0x7c, 0x01, 0x81, 0x2c, 0xf7, 0x21, 0xad, 0x1c,
  0xde, 0xd4, 0x6d, 0xe9, 0x83, 0x90, 0x97, 0xdb, 0x72, 0x40, 0xa4, 0xa4, 0xb7, 0xb3, 0x67, 0x1f,
  0xcb, 0x79, 0xe6, 0x4e, 0xcc, 0xc0, 0xe5, 0x78, 0x82, 0x5a, 0xd0, 0x7d, 0xcc, 0xff, 0x72, 0x21,
  0xb8, 0x08, 0x46, 0x74, 0xf7, 0x43, 0x24, 0x8e, 0xe0, 0x35, 0x90, 0xe6, 0x81, 0x3a, 0x26, 0x4c,
  0x3c, 0x28, 0x52, 0xbb, 0x91, 0xc3, 0x00, 0xcb, 0x88, 0xd0, 0x65, 0x8b, 0x1b, 0x53, 0x2e, 0xa3,
  0x71, 0x64, 0x48, 0x97, 0xa2, 0x0d, 0xf9, 0x4e, 0x38, 0x19, 0xef, 0x46, 0xa9, 0xde, 0xac, 0xd8,
  0xa8, 0xfa, 0x76, 0x3f, 0xe3, 0x9c, 0x34, 0x3f, 0xf9, 0xdc, 0xbb, 0xc7, 0xc7, 0x0b, 0x4f, 0x1d,
  0x8a, 0x51, 0xe0, 0x4b, 0xcd, 0xb4, 0x59, 0x31, 0xc8, 0x9f, 0x7e, 0xc9, 0xd9, 0x78, 0x73, 0x64,
  0xea, 0xc5, 0xac, 0x83, 0x34, 0xd3, 0xeb, 0xc3, 0xc5, 0x81, 0xa0, 0xff, 0xfa, 0x13, 0x63, 0xeb,
  0x17, 0x0d, 0xdd, 0x51, 0xb7, 0xf0, 0xda, 0x49, 0xd3, 0x16, 0x55, 0x26, 0x29, 0xd4, 0x68, 0x9e,
  0x2b, 0x16, 0xbe, 0x58, 0x7d, 0x47, 0xa1, 0xfc, 0x8f, 0xf8, 0xb8, 0xd1, 0x7a, 0xd0, 0x31, 0xce,
  0x45, 0xcb, 0x3a, 0x8f, 0x95, 0x16, 0x04, 0x28, 0xaf, 0xd7, 0xfb, 0xca, 0xbb, 0x4b, 0x40, 0x7e]⟩

def prime32a : UInt64 := 0x9E3779B1
def prime32b : UInt64 := 0x85EBCA77
def prime32c : UInt64 := 0xC2B2AE3D
def prime64a : UInt64 := 0x9E3779B185EBCA87
def prime64b : UInt64 := 0xC2B2AE3D27D4EB4F
def prime64c : UInt64 := 0x165667B19E3779F9
def prime64d : UInt64 := 0x85EBCA77C2B2AE63
def prime64e : UInt64 := 0x27D4EB2F165667C5
def primeMixA : UInt64 := 0x165667919E3779F9
def primeMixB : UInt64 := 0x9FB21C651E98DF25

def byte (bs : ByteArray) (i : Nat) : UInt64 :=
  if h : i < bs.size then bs[i].toUInt64 else 0

def word32 (bs : ByteArray) (i : Nat) : UInt64 :=
  byte bs i ||| (byte bs (i + 1) <<< 8) ||| (byte bs (i + 2) <<< 16) ||| (byte bs (i + 3) <<< 24)

def word64 (bs : ByteArray) (i : Nat) : UInt64 :=
  word32 bs i ||| (word32 bs (i + 4) <<< 32)

def product (a b : UInt64) : UInt64 × UInt64 :=
  let p := a.toNat * b.toNat
  (UInt64.ofNat p, UInt64.ofNat (p >>> 64))

def fold (a b : UInt64) : UInt64 :=
  let p := product a b
  p.1 ^^^ p.2

def low32 (x : UInt64) : UInt64 := x &&& 0xffffffff

def swap32 (x : UInt64) : UInt64 :=
  let b0 : UInt64 := x &&& 0xff
  let b1 : UInt64 := (x >>> 8) &&& 0xff
  let b2 : UInt64 := (x >>> 16) &&& 0xff
  let b3 : UInt64 := (x >>> 24) &&& 0xff
  (b0 <<< 24) ||| (b1 <<< 16) ||| (b2 <<< 8) ||| b3

def swap64 (x : UInt64) : UInt64 :=
  (swap32 (low32 x) <<< 32) ||| swap32 (x >>> 32)

def avalanche (h : UInt64) : UInt64 :=
  let h := (h ^^^ (h >>> 37)) * primeMixA
  h ^^^ (h >>> 32)

def avalancheShort (h : UInt64) : UInt64 :=
  let h := (h ^^^ (h >>> 33)) * prime64b
  let h := (h ^^^ (h >>> 29)) * prime64c
  h ^^^ (h >>> 32)

def key (i : Nat) : UInt64 := word64 secret i

def empty : UInt64 × UInt64 :=
  (avalancheShort (key 64 ^^^ key 72), avalancheShort (key 80 ^^^ key 88))

def upTo3 (bs : ByteArray) : UInt64 × UInt64 :=
  let n := bs.size
  let low := (byte bs 0 <<< 16) ||| (byte bs (n / 2) <<< 24) ||| byte bs (n - 1) |||
    (UInt64.ofNat n <<< 8)
  let turned := swap32 low
  let high := low32 ((turned <<< 13) ||| (turned >>> 19))
  (avalancheShort (low ^^^ (word32 secret 0 ^^^ word32 secret 4)),
    avalancheShort (high ^^^ (word32 secret 8 ^^^ word32 secret 12)))

def upTo8 (bs : ByteArray) : UInt64 × UInt64 :=
  let n := bs.size
  let input := word32 bs 0 + (word32 bs (n - 4) <<< 32)
  let keyed := input ^^^ (key 16 ^^^ key 24)
  let m := product keyed (prime64a + (UInt64.ofNat n <<< 2))
  let high := m.2 + (m.1 <<< 1)
  let low := m.1 ^^^ (high >>> 3)
  let low := (low ^^^ (low >>> 35)) * primeMixB
  (low ^^^ (low >>> 28), avalanche high)

def upTo16 (bs : ByteArray) : UInt64 × UInt64 :=
  let n := bs.size
  let first := word64 bs 0
  let last := word64 bs (n - 8)
  let m := product (first ^^^ last ^^^ (key 32 ^^^ key 40)) prime64a
  let low := m.1 + (UInt64.ofNat (n - 1) <<< 54)
  let last := last ^^^ (key 48 ^^^ key 56)
  let high := m.2 + (last + low32 last * (prime32b - 1))
  let low := low ^^^ swap64 high
  let h := product low prime64b
  (avalanche h.1, avalanche (h.2 + high * prime64b))

def mix16 (bs : ByteArray) (i k : Nat) : UInt64 :=
  fold (word64 bs i ^^^ key k) (word64 bs (i + 8) ^^^ key (k + 8))

def mix32 (bs : ByteArray) (acc : UInt64 × UInt64) (i j k : Nat) : UInt64 × UInt64 :=
  ((acc.1 + mix16 bs i k) ^^^ (word64 bs j + word64 bs (j + 8)),
    (acc.2 + mix16 bs j (k + 16)) ^^^ (word64 bs i + word64 bs (i + 8)))

def finish (n : Nat) (acc : UInt64 × UInt64) : UInt64 × UInt64 :=
  (avalanche (acc.1 + acc.2),
    0 - avalanche (acc.1 * prime64a + acc.2 * prime64d + UInt64.ofNat n * prime64b))

def upTo128 (bs : ByteArray) : UInt64 × UInt64 :=
  let n := bs.size
  let rounds := (List.range ((n - 1) / 32 + 1)).reverse
  finish n (rounds.foldl
    (fun acc i => mix32 bs acc (16 * i) (n - 16 * (i + 1)) (32 * i))
    (UInt64.ofNat n * prime64a, 0))

def upTo240 (bs : ByteArray) : UInt64 × UInt64 :=
  let n := bs.size
  let acc := (List.range 4).foldl
    (fun acc i => mix32 bs acc (32 * i) (32 * i + 16) (32 * i))
    (UInt64.ofNat n * prime64a, 0)
  let acc := (List.range (n / 32 - 4)).foldl
    (fun acc i => mix32 bs acc (32 * i + 128) (32 * i + 144) (32 * i + 3))
    (avalanche acc.1, avalanche acc.2)
  finish n (mix32 bs acc (n - 16) (n - 32) 103)

abbrev Lanes := Array UInt64

def lanes : Lanes :=
  #[prime32c, prime64a, prime64b, prime64c, prime64d, prime32b, prime64e, prime32a]

def stripe (bs : ByteArray) (acc : Lanes) (i k : Nat) : Lanes :=
  Array.ofFn fun (j : Fin 8) =>
    let keyed := word64 bs (i + 8 * j) ^^^ key (k + 8 * j)
    acc.getD j 0 + word64 bs (i + 8 * (j ^^^ 1)) + low32 keyed * (keyed >>> 32)

def stripes (bs : ByteArray) (acc : Lanes) (i count : Nat) : Lanes :=
  (List.range count).foldl (fun acc s => stripe bs acc (i + 64 * s) (8 * s)) acc

def scramble (acc : Lanes) : Lanes :=
  Array.ofFn fun (j : Fin 8) =>
    let a := acc.getD j 0
    ((a ^^^ (a >>> 47)) ^^^ key (128 + 8 * j)) * prime32a

def merge (acc : Lanes) (k : Nat) (start : UInt64) : UInt64 :=
  avalanche ((List.range 4).foldl
    (fun r i => r + fold (acc.getD (2 * i) 0 ^^^ key (k + 16 * i))
      (acc.getD (2 * i + 1) 0 ^^^ key (k + 16 * i + 8))) start)

def long (bs : ByteArray) : UInt64 × UInt64 :=
  let n := bs.size
  let blocks := (n - 1) / 1024
  let acc := (List.range blocks).foldl
    (fun acc b => scramble (stripes bs acc (1024 * b) 16)) lanes
  let acc := stripes bs acc (1024 * blocks) ((n - 1 - 1024 * blocks) / 64)
  let acc := stripe bs acc (n - 64) 121
  (merge acc 11 (UInt64.ofNat n * prime64a),
    merge acc 117 ((UInt64.ofNat n * prime64b) ^^^ 0xffffffffffffffff))

def words (bs : ByteArray) : UInt64 × UInt64 :=
  if bs.size = 0 then empty
  else if bs.size ≤ 3 then upTo3 bs
  else if bs.size ≤ 8 then upTo8 bs
  else if bs.size ≤ 16 then upTo16 bs
  else if bs.size ≤ 128 then upTo128 bs
  else if bs.size ≤ 240 then upTo240 bs
  else long bs

/-- The sixteen bytes of the digest: the low word, then the high one, each least significant
byte first. -/
def digest (b : ByteArray) : Bytes :=
  let w := words b
  Bytes.littleEndian 8 w.1.toNat ++ Bytes.littleEndian 8 w.2.toNat

theorem length_digest (b : ByteArray) : (digest b).length = 16 := by
  simp [digest, Bytes.length_littleEndian]

end Trainyard.Digest.Xxh3
