import Trainyard.Json.Decode
import Trainyard.Json.Printer
import Trainyard.Json.Reader
import Trainyard.Tree

/-!
# Trees as JSON

Every part is written, even an empty one; when reading, all but a node's kind
and a diagnostic's severity and message may be left out.
-/

set_option autoImplicit false

namespace Trainyard

open Json (Value Fields)

namespace Attributes

def toJson (a : Attributes) : Value :=
  .record (a.entries.map fun e => (e.1, .text e.2))

def ofJson? (room : Nat) (v : Value) : Option Attributes := (v.asTexts? room).map ofList

end Attributes

namespace Location

def toJson (l : Location) : Value :=
  .record [("line", .nat l.line.toNat), ("column", .nat l.column.toNat)]

def orNull : Option Location → Value
  | some l => l.toJson
  | none => .null

def ofJson? (room : Nat) (v : Value) : Option Location := do
  let f ← Fields.ofValue? ["line", "column"] room v
  some ⟨← f.required 0 Value.asWord?, ← f.required 1 Value.asWord?⟩

end Location

namespace Severity

def ofJson? (room : Nat) (v : Value) : Option Severity := (v.asName? room).bind ofName?

end Severity

namespace Diagnostic

def toJson (d : Diagnostic) : Value :=
  .record [("severity", .text d.severity.name), ("message", .text d.message),
    ("location", Location.orNull d.location), ("step", .textOrNull d.step)]

def ofJson? : Nat → Value → Option Diagnostic
  | 0, _ => none
  | room + 1, v => do
    let f ← Fields.ofValue? ["severity", "message", "location", "step"] (room + 1) v
    let severity ← f.required 0 (Severity.ofJson? room)
    let message ← f.required 1 Value.asText?
    let location ← f.optional 2 (Location.ofJson? room)
    let step ← f.optional 3 Value.asText?
    some ⟨severity, message, location, step⟩

end Diagnostic

namespace Node

mutual

def toJson : Node → Value
  | .mk kind attributes children =>
    .record [("kind", .text kind), ("attributes", attributes.toJson),
      ("children", .array (listJson children))]

def listJson : List Node → List Value
  | [] => []
  | n :: ns => toJson n :: listJson ns

end

def ofFields? (room : Nat) (children : Value → Option (List Node)) (v : Value) : Option Node := do
  let f ← Fields.ofValue? ["kind", "attributes", "children"] (room + 1) v
  let kind ← f.required 0 Value.asText?
  let attributes ← f.defaulted 1 (Attributes.ofJson? room) .empty
  let children ← f.defaulted 2 children []
  some (.mk kind attributes children)

def ofJson? : Nat → Value → Option Node
  | 0 => fun _ => none
  | 1 => ofFields? 0 fun _ => none
  | inner + 2 => ofFields? (inner + 1) (Value.asList? (fun _ => ofJson? inner) (inner + 1))

end Node

namespace Tree

def toJson (t : Tree) : Value :=
  .record [("attributes", t.attributes.toJson), ("objects", .array (t.objects.toList.map Node.toJson)),
    ("errors", .array (t.errors.toList.map Diagnostic.toJson))]

def ofJson? : Nat → Value → Option Tree
  | 0, _ => none
  | room + 1, v => do
    let f ← Fields.ofValue? ["attributes", "objects", "errors"] (room + 1) v
    let attributes ← f.defaulted 0 (Attributes.ofJson? room) .empty
    let objects ← f.defaulted 1 (Value.asList? Node.ofJson? room) []
    let errors ← f.defaulted 2 (Value.asList? Diagnostic.ofJson? room) []
    some ⟨attributes, .ofList objects, .ofList errors⟩

def render (t : Tree) : String := t.toJson.render

def parse? (s : String) : Option Tree := (Json.parse? s).bind (ofJson? Value.room)

end Tree

end Trainyard
