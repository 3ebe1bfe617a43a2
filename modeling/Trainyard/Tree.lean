import Trainyard.Diagnostic
import Trainyard.FileSystem
import Trainyard.Series
import Trainyard.Tree.Attributes

/-!
# Trees

A program under way: attributes of the whole, nested nodes, and the diagnostics
found so far. Two attributes of the whole have a meaning of their own: one is the
object's dotted name, the other the code generated for it.
-/

set_option autoImplicit false

namespace Trainyard

inductive Node where
  | mk (kind : String) (attributes : Attributes) (children : List Node)

namespace Node

mutual

def decEq : (m n : Node) → Decidable (m = n)
  | .mk k a c, .mk k' a' c' =>
    if hk : k = k' then
      if ha : a = a' then
        match decEqList c c' with
        | .isTrue hc => .isTrue (by rw [hk, ha, hc])
        | .isFalse hc => .isFalse fun h => by injection h; contradiction
      else .isFalse fun h => by injection h; contradiction
    else .isFalse fun h => by injection h; contradiction

def decEqList : (ms ns : List Node) → Decidable (ms = ns)
  | [], [] => .isTrue rfl
  | [], _ :: _ => .isFalse nofun
  | _ :: _, [] => .isFalse nofun
  | m :: ms, n :: ns =>
    match decEq m n, decEqList ms ns with
    | .isTrue h, .isTrue hs => .isTrue (by rw [h, hs])
    | .isFalse h, _ => .isFalse fun e => by injection e; contradiction
    | _, .isFalse h => .isFalse fun e => by injection e; contradiction

end

instance : DecidableEq Node := decEq

instance : Inhabited Node := ⟨.mk "" .empty []⟩

def kind : Node → String
  | .mk k _ _ => k

def attributes : Node → Attributes
  | .mk _ a _ => a

def children : Node → List Node
  | .mk _ _ c => c

end Node

structure Tree where
  attributes : Attributes
  objects : Series Node
  errors : Series Diagnostic
  deriving DecidableEq

inductive EncodingError where
  | malformed
  | trailing (count : Nat)
  deriving DecidableEq

inductive TreeError where
  | io (path : Path) (cause : OsError)
  | parse (path : Path)
  | encoding (cause : EncodingError)
  | missingAttribute (name : String)
  deriving DecidableEq

def unspecified : String := "<reason>"

namespace EncodingError

def message : EncodingError → String
  | .malformed => unspecified
  | .trailing n => s!"{n} trailing bytes"

end EncodingError

namespace TreeError

def message : TreeError → String
  | .io path cause => s!"tree I/O error at {path.text}: {cause.message}"
  | .parse path => s!"failed to parse tree {path.text}: {unspecified}"
  | .encoding cause => s!"tree encoding error: {cause.message}"
  | .missingAttribute name => s!"tree has no '{name}' attribute"

end TreeError

namespace Tree

def nameKey : String := "name"

def codeKey : String := "rust"

def empty : Tree := ⟨.empty, .empty, .empty⟩

def attribute? (t : Tree) (key : String) : Option String := t.attributes.get? key

def setAttribute (t : Tree) (key value : String) : Tree :=
  { t with attributes := t.attributes.insert key value }

def eraseAttribute (t : Tree) (key : String) : Tree :=
  { t with attributes := t.attributes.erase key }

def ofName (name : String) : Tree := empty.setAttribute nameKey name

def name? (t : Tree) : Option String := t.attribute? nameKey

def require (t : Tree) (key : String) : Except TreeError String :=
  match t.attribute? key with
  | some v => .ok v
  | none => .error (.missingAttribute key)

def addObject (t : Tree) (n : Node) : Tree := { t with objects := t.objects.push n }

def addError (t : Tree) (d : Diagnostic) : Tree := { t with errors := t.errors.push d }

def count (t : Tree) (s : Severity) : Nat := t.errors.count (·.severity = s)

def has (t : Tree) (s : Severity) : Bool := t.errors.any (·.severity = s)

end Tree

end Trainyard
