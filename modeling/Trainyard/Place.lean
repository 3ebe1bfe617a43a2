import Trainyard.Path

/-!
# Places

The dotted name of an object says where its files go: the non-empty segments of
`org.shapes.circle` are the directories `org/shapes` and the file stem `circle`. A name
without segments, or with a slash in one, has no place.
-/

set_option autoImplicit false

namespace Trainyard

structure Place where
  segments : List String
  deriving DecidableEq

inductive PlaceError where
  | empty (name : String)
  | separator (name segment : String)
  deriving DecidableEq

namespace PlaceError

def message : PlaceError → String
  | .empty name => s!"object name '{name}' has no segments"
  | .separator name segment =>
    s!"object name '{name}' has segment '{segment}' with a path separator"

end PlaceError

namespace Place

def segmentsOf (name : String) : List String := (Text.parts '.' name).filter (· ≠ "")

def hasSlash (segment : String) : Bool := segment.toList.contains '/'

def ofName (name : String) : Except PlaceError Place :=
  match segmentsOf name with
  | [] => .error (.empty name)
  | segments =>
    match segments.find? hasSlash with
    | some segment => .error (.separator name segment)
    | none => .ok ⟨segments⟩

def relative (p : Place) (extension : String) : Path :=
  let stem := "/".intercalate p.segments
  ⟨if extension = "" then stem else stem ++ "." ++ extension⟩

def within (p : Place) (dir : Path) (extension : String) : Path := dir.join (p.relative extension)

end Place

end Trainyard
