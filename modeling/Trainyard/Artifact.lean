import Trainyard.Binary
import Trainyard.Digest
import Trainyard.Tree

/-!
# Artifacts

A payload in a file of its own: the length of a header in four bytes, the header
and the payload. The header holds a mark, the version of this format, the
version of the producer and the digest of the payload, so that a damaged file is
told from a good one.
-/

set_option autoImplicit false

namespace Trainyard

namespace Artifact

structure Header where
  magic : Bytes
  version : Nat
  producer : String
  checksum : Digest
  deriving DecidableEq

def magic : Bytes := [0x45, 0x4F, 0x54, 0x43]

def version : Nat := 1

namespace Header

def encode (h : Header) : Bytes :=
  h.magic ++ Binary.nat h.version (Binary.text h.producer (Binary.text h.checksum.toHex []))

def read : Binary.Reader Header := fun b => do
  let (magic, b) ← Binary.bytes 4 b
  let (version, b) ← Binary.readWord b
  let (producer, b) ← Binary.readText b
  let (hex, b) ← Binary.readText b
  match Digest.ofHex hex with
  | .ok checksum => some (⟨magic, version, producer, checksum⟩, b)
  | .error _ => none

end Header

inductive Fault where
  | tooShort
  | truncated
  | malformed
  | noMagic
  | version (actual : Nat)
  | checksum (expected actual : Digest)
  deriving DecidableEq

def header (producer : String) (payload : Bytes) : Bytes :=
  Header.encode ⟨magic, version, producer, Digest.ofBytes payload⟩

def encode (producer : String) (payload : Bytes) : Bytes :=
  let h := header producer payload
  Bytes.littleEndian 4 h.length ++ h ++ payload

def decode (raw : Bytes) : Except Fault Bytes :=
  match Binary.bytes 4 raw with
  | none => .error .tooShort
  | some (size, rest) =>
    match Binary.bytes (Bytes.toNat size) rest with
    | none => .error .truncated
    | some (head, payload) =>
      match Header.read head with
      | none => .error .malformed
      | some (h, _) =>
        if h.magic ≠ magic then .error .noMagic
        else if h.version ≠ version then .error (.version h.version)
        else if h.checksum ≠ Digest.ofBytes payload then
          .error (.checksum h.checksum (Digest.ofBytes payload))
        else .ok payload

end Artifact

inductive CacheError where
  | io (path : Path) (cause : OsError)
  | fault (path : Path) (cause : Artifact.Fault)
  deriving DecidableEq

namespace CacheError

def message : CacheError → String
  | .io path cause => s!"cache I/O error at {path.text}: {cause.message}"
  | .fault path .tooShort =>
    s!"invalid artifact header in {path.text}: file too short for header length"
  | .fault path .truncated => s!"invalid artifact header in {path.text}: truncated header"
  | .fault path .malformed => s!"invalid artifact header in {path.text}: {unspecified}"
  | .fault path .noMagic => s!"invalid artifact header in {path.text}: missing magic bytes"
  | .fault path (.version actual) =>
    s!"version mismatch in {path.text}: expected {Artifact.version}, got {actual}"
  | .fault path (.checksum expected actual) =>
    s!"checksum mismatch in {path.text}: expected {expected.toHex}, got {actual.toHex}"

def isNotFound : CacheError → Bool
  | .io _ .notFound => true
  | _ => false

end CacheError

end Trainyard
