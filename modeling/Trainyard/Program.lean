import Trainyard.Config
import Trainyard.Digest
import Trainyard.Json.Decode
import Trainyard.Place

/-!
# Programs

One item that the stages work on: its dotted name, its source, the tree it was
parsed into, and what the stages recorded about it. Times are always asked of
the files and never kept.
-/

set_option autoImplicit false

namespace Trainyard

structure Program where
  name : String
  scope : Scope := .compile
  source : Path
  intermediate : Path
  optimized : Option Path := none
  binarized : Option Path := none
  digest : Option Digest := none
  deriving DecidableEq

namespace Program

def place (p : Program) : Except PlaceError Place := Place.ofName p.name

/-- Whether the optimized tree is missing or older than the parsed one. With nothing to start
from, an optimized tree that is there is left as it is. -/
def needsOptimization (fs : FileSystem) (p : Program) : Bool :=
  match p.optimized with
  | none => true
  | some output =>
    match fs.modified? output, fs.modified? p.intermediate with
    | none, _ => true
    | some _, none => false
    | some out, some input => out < input

open Json (Value Fields)

def pathJson : Option Path → Value
  | some p => .text p.text
  | none => .null

def toJson (p : Program) : Value :=
  .record [("name", .text p.name), ("scope", .text p.scope.name),
    ("source_path", .text p.source.text), ("intermediate_path", .text p.intermediate.text),
    ("optimized_path", pathJson p.optimized), ("binarized_path", pathJson p.binarized),
    ("content_hash", .textOrNull (p.digest.map Digest.toHex))]

def path? (v : Value) : Option Path := v.asText?.map Path.mk

def digest? (v : Value) : Option Digest := do
  match Digest.ofHex (← v.asText?) with
  | .ok d => some d
  | .error _ => none

def ofJson? : Nat → Value → Option Program
  | 0, _ => none
  | room + 1, v => do
    let f ← Fields.ofValue? ["name", "scope", "source_path", "intermediate_path",
      "optimized_path", "binarized_path", "content_hash"] (room + 1) v
    let name ← f.required 0 Value.asText?
    let scope ← f.defaulted 1 (fun v => (v.asName? room).bind Scope.ofName?) .compile
    let source ← f.required 2 path?
    let intermediate ← f.required 3 path?
    let optimized ← f.defaulted 4 (Value.asOptional? path?) none
    let binarized ← f.defaulted 5 (Value.asOptional? path?) none
    let digest ← f.defaulted 6 (Value.asOptional? digest?) none
    some ⟨name, scope, source, intermediate, optimized, binarized, digest⟩

end Program

end Trainyard
