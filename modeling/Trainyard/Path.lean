import Trainyard.Text.Split

/-!
# Paths

A path is the text it was written as; joining and taking the parent keep that
text and normalise nothing. Its pieces are what stands between the slashes. An
empty piece, and a dot that does not lead a relative path, name nothing.
-/

set_option autoImplicit false

namespace Trainyard

structure Path where
  text : String
  deriving DecidableEq

namespace Path

def pieces (p : Path) : List String := Text.parts '/' p.text

def isAbsolute (p : Path) : Bool := p.text.toList.head? = some '/'

def isEmpty (p : Path) : Bool := p.text = ""

def endsInSlash (p : Path) : Bool := p.text.toList.getLast? = some '/'

def join (p q : Path) : Path :=
  if q.isAbsolute then q
  else if p.isEmpty || p.endsInSlash then ⟨p.text ++ q.text⟩
  else ⟨p.text ++ "/" ++ q.text⟩

def child (p : Path) (name : String) : Path := p.join ⟨name⟩

def absolute (p : Path) (working : List String) : Path :=
  if p.isAbsolute then p else (Path.mk ("/" ++ "/".intercalate working)).join p

def components (p : Path) : List String := p.pieces.filter (· ≠ "")

def isBlank (piece : String) : Bool := piece = "" ∨ piece = "."

/-- The names along a path, the last one first. Blank pieces name nothing, except for a dot that
leads. -/
def names (p : Path) : List String :=
  match p.pieces with
  | "." :: body => (body.filter fun piece => !isBlank piece).reverse ++ ["."]
  | pieces => (pieces.filter fun piece => !isBlank piece).reverse

def parentPieces (pieces : List String) : Option (List String) :=
  match pieces.reverse.dropWhile isBlank with
  | [] => none
  | _ :: r => some (r.dropWhile isBlank).reverse

def parent? (p : Path) : Option Path :=
  match p.pieces with
  | "" :: body@(_ :: _) => (parentPieces body).map fun r => ⟨"/" ++ "/".intercalate r⟩
  | "." :: body =>
    match parentPieces body with
    | none => some ⟨""⟩
    | some r => some ⟨"/".intercalate ("." :: r)⟩
  | pieces => (parentPieces pieces).map fun r => ⟨"/".intercalate r⟩

end Path

end Trainyard
