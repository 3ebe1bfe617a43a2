import Trainyard.Digest.Xxh3
import Trainyard.Text.Hex

/-!
# Content digests

A digest is sixteen bytes that stand for some content. It is shown as 32 lower
case hexadecimal digits and read back from digits of either case.
-/

set_option autoImplicit false

namespace Trainyard

structure Digest where
  bytes : Bytes
  size : bytes.length = 16
  deriving DecidableEq

structure DigestError where
  text : String
  deriving DecidableEq

namespace DigestError

def message (e : DigestError) : String :=
  s!"invalid content hash '{e.text}': expected 32 hex characters"

end DigestError

namespace Digest

def ofContent (b : ByteArray) : Digest := ⟨Xxh3.digest b, Xxh3.length_digest b⟩

def ofBytes (b : Bytes) : Digest := ofContent b.pack

def toHex (d : Digest) : String := String.ofList (Text.Hex.encode d.bytes)

def ofHex (text : String) : Except DigestError Digest :=
  match Text.Hex.decode text.toList with
  | some b => if h : b.length = 16 then .ok ⟨b, h⟩ else .error ⟨text⟩
  | none => .error ⟨text⟩

def brief (d : Digest) : String :=
  "ContentHash(" ++ String.ofList (Text.Hex.encode (d.bytes.take 2)) ++ "..)"

end Digest

end Trainyard
