import Trainyard.Job

/-!
# Repositories

Where the sources of objects come from: a home directory, a table, any function of
names, or two repositories of which one is asked after the other has failed. A
switch, set from outside, says which of the two comes first.
-/

set_option autoImplicit false

namespace Trainyard

structure Home where
  dir : Path
  deriving DecidableEq

namespace Home

def pathOf (h : Home) (name : String) : Except PlaceError Path := do
  return (← Place.ofName name).within h.dir "eo"

def contains (h : Home) (fs : FileSystem) (name : String) : Bool :=
  match h.pathOf name with
  | .ok p => fs.isFile p
  | .error _ => false

def save (h : Home) (name source : String) : Job FetchError Path := do
  let path ← Job.ofExcept .unplaceable (h.pathOf name)
  Job.writeText .io path source
  Job.tell (.sourceSaved name path)
  pure path

def get (h : Home) (fs : FileSystem) (name : String) : Except FetchError String :=
  match h.pathOf name with
  | .error e => .error (.unplaceable e)
  | .ok path =>
    match fs.readText path with
    | .ok source => .ok source
    | .error .notFound => .error (.notFound name)
    | .error e => .error (.io path e)

end Home

structure SourceTable where
  entries : List (String × String)
  remote : Option String
  deriving DecidableEq

namespace SourceTable

def get (t : SourceTable) (name : String) : Except FetchError String :=
  match t.entries.reverse.lookup name, t.remote with
  | some source, _ => .ok source
  | none, some reason => .error (.remote name reason)
  | none, none => .error (.notFound name)

end SourceTable

inductive Source where
  | home (h : Home)
  | table (t : SourceTable)
  | client (ask : String → Except FetchError String)

namespace Source

def get (s : Source) (fs : FileSystem) (name : String) : Except FetchError String :=
  match s with
  | .home h => h.get fs name
  | .table t => t.get name
  | .client ask => ask name

end Source

abbrev Switches := Nat → Bool

namespace Switches

def set (switches : Switches) (switch : Nat) (swapped : Bool) : Switches := fun i =>
  if i = switch then swapped else switches i

end Switches

/-- Leaves carry a label, fallbacks the number of their switch. -/
inductive Repository where
  | leaf (label : String) (source : Source)
  | fallback (switch : Nat) (first second : Repository)

structure Inquiry where
  asked : List String
  events : List Event
  answer : Except FetchError String

namespace Inquiry

def orElse (name : String) (q : Inquiry) (next : Unit → Inquiry) : Inquiry :=
  match q.answer with
  | .ok _ => q
  | .error e =>
    let r := next ()
    ⟨q.asked ++ r.asked, q.events ++ .fallingBack name e :: r.events, r.answer⟩

end Inquiry

namespace Repository

def inquire (fs : FileSystem) (swapped : Switches) (name : String) : Repository → Inquiry
  | .leaf label source => ⟨[label], [], source.get fs name⟩
  | .fallback switch first second =>
    if swapped switch then
      (inquire fs swapped name second).orElse name fun _ => inquire fs swapped name first
    else
      (inquire fs swapped name first).orElse name fun _ => inquire fs swapped name second

end Repository

end Trainyard
