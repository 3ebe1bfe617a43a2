import Trainyard.Named

/-!
# TOML values

A table remembers how it came about, because that decides what may still be
added to it: one written in braces is closed, one opened by a header may not be
opened again, one that only lies on the way to another may be opened once, and
one made by a dotted key may be extended by dotted keys.
-/

set_option autoImplicit false

namespace Trainyard.Toml

inductive Origin where
  | inline
  | header
  | implied
  | dotted
  deriving DecidableEq

/-- Of floats and times only the presence matters here. -/
inductive Value where
  | string (s : String)
  | integer (n : Int)
  | float
  | boolean (b : Bool)
  | dateTime
  | array (items : List Value)
  -- opened by repeated headers; those before the last one, the latest first
  | tables (last : List (String × Value)) (earlier : List (List (String × Value)))
  | table (origin : Origin) (fields : List (String × Value))

abbrev Table := List (String × Value)

namespace Table

/-- Sets a key reached by a dotted path of tables. Tables on the way are made as needed. The
last table must itself come from a dotted key, unless the path is empty. -/
def assignFrom (path : List String) (key : String) (v : Value) (last : Bool) (t : Table) :
    Option Table :=
  match path with
  | [] => if last && (t.lookup key).isNone then some ((key, v) :: t) else none
  | p :: ps =>
    match t.lookup p with
    | none => do some ((p, .table .dotted (← assignFrom ps key v true [])) :: t)
    | some (.table .dotted fields) => do
      some (Named.replace p (.table .dotted (← assignFrom ps key v true fields)) t)
    | some (.table .implied fields) => do
      some (Named.replace p (.table .implied (← assignFrom ps key v false fields)) t)
    | some (.tables fields earlier) => do
      some (Named.replace p (.tables (← assignFrom ps key v false fields) earlier) t)
    | some _ => none

def assign (t : Table) (path : List String) (key : String) (v : Value) : Option Table :=
  assignFrom path key v true t

/-- Changes what stands at a header's path. Tables on the way are made as needed, and an array
of tables is entered at its last one. -/
def alter (f : Option Value → Option Value) : List String → Table → Option Table
  | [], _ => none
  | [k], t =>
    match t.lookup k with
    | none => do some ((k, ← f none) :: t)
    | some v => do some (Named.replace k (← f (some v)) t)
  | k :: ks, t =>
    match t.lookup k with
    | none => do some ((k, .table .implied (← alter f ks [])) :: t)
    | some (.table .inline _) => none
    | some (.table o fields) => do some (Named.replace k (.table o (← alter f ks fields)) t)
    | some (.tables fields earlier) => do
      some (Named.replace k (.tables (← alter f ks fields) earlier) t)
    | some _ => none

end Table

structure Assignment where
  path : List String
  key : String
  value : Value

namespace Table

def assignAll (t : Table) (as : List Assignment) : Option Table :=
  as.foldlM (fun t a => t.assign a.path a.key a.value) t

end Table

structure Section where
  path : List String
  repeated : Bool
  assignments : List Assignment

namespace Section

def extend? (s : Section) : Option Value → Option Value
  | none => do
    let fields ← Table.assignAll [] s.assignments
    some (if s.repeated then .tables fields [] else .table .header fields)
  | some (.table .implied fields) =>
    if s.repeated then none
    else do some (.table .header (← Table.assignAll fields s.assignments))
  | some (.tables last earlier) =>
    if s.repeated then do
      some (.tables (← Table.assignAll [] s.assignments) (last :: earlier))
    else none
  | some _ => none

end Section

namespace Table

def ofSections (first : List Assignment) (sections : List Section) : Option Table := do
  sections.foldlM (fun t s => t.alter s.extend? s.path) (← assignAll [] first)

end Table

end Trainyard.Toml
