import Trainyard.Binary
import Trainyard.Tree

/-!
# Trees as bytes

The parts of a tree in their order, each in the compact notation. Attributes may
be read in any order and with repetitions; the last text of a key stays.
-/

set_option autoImplicit false

namespace Trainyard

namespace Attributes

def writeBinary : Binary.Writer Attributes := fun a =>
  Binary.list (fun e rest => Binary.text e.1 (Binary.text e.2 rest)) a.entries

def readBinary : Binary.Reader Attributes := fun b => do
  let (pairs, b) ← Binary.readList (fun b => do
    let (k, b) ← Binary.readText b
    let (v, b) ← Binary.readText b
    some ((k, v), b)) b
  some (ofList pairs, b)

end Attributes

namespace Diagnostic

def writeLocation : Binary.Writer Location := fun l rest =>
  Binary.nat l.line.toNat (Binary.nat l.column.toNat rest)

def readLocation : Binary.Reader Location := fun b => do
  let (line, b) ← Binary.readWord b
  let (column, b) ← Binary.readWord b
  some (⟨UInt32.ofNat line, UInt32.ofNat column⟩, b)

def writeBinary : Binary.Writer Diagnostic := fun d rest =>
  Binary.nat d.severity.rank (Binary.text d.message
    (Binary.option writeLocation d.location (Binary.option Binary.text d.step rest)))

def readBinary : Binary.Reader Diagnostic := fun b => do
  let (rank, b) ← Binary.readWord b
  let severity ← Severity.ofRank? rank
  let (message, b) ← Binary.readText b
  let (location, b) ← Binary.readOption readLocation b
  let (step, b) ← Binary.readOption Binary.readText b
  some (⟨severity, message, location, step⟩, b)

end Diagnostic

namespace Node

mutual

def writeBinary : Node → Bytes → Bytes
  | .mk kind attributes children, rest =>
    Binary.text kind (attributes.writeBinary
      (Binary.nat children.length (writeAll children rest)))

def writeAll : List Node → Bytes → Bytes
  | [], rest => rest
  | n :: ns, rest => writeBinary n (writeAll ns rest)

end

def readWithin : Nat → Binary.Reader Node
  | 0, _ => none
  | depth + 1, b => do
    let (kind, b) ← Binary.readText b
    let (attributes, b) ← Attributes.readBinary b
    let (children, b) ← Binary.readList (readWithin depth) b
    some (.mk kind attributes children, b)

end Node

namespace Tree

def writeBinary : Binary.Writer Tree := fun t rest =>
  t.attributes.writeBinary (Binary.list Node.writeBinary t.objects.toList
    (Binary.list Diagnostic.writeBinary t.errors.toList rest))

def toBinary (t : Tree) : Bytes := t.writeBinary []

def readWithin (depth : Nat) : Binary.Reader Tree := fun b => do
  let (attributes, b) ← Attributes.readBinary b
  let (objects, b) ← Binary.readList (Node.readWithin depth) b
  let (errors, b) ← Binary.readList Diagnostic.readBinary b
  some (⟨attributes, .ofList objects, .ofList errors⟩, b)

/-- Each level of nesting takes some bytes, so their number bounds it. -/
def readBinary : Binary.Reader Tree := fun b => readWithin b.length b

def ofBinary (b : Bytes) : Except EncodingError Tree :=
  match readBinary b with
  | none => .error .malformed
  | some (t, []) => .ok t
  | some (_, rest) => .error (.trailing rest.length)

end Tree

end Trainyard
