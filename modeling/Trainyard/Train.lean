import Trainyard.Job
import Trainyard.Layout
import Trainyard.Step

/-!
# Trains

A train is a list of content steps followed by gates. A tree goes through them
in order and the first failure ends the run. With snapshots on, the tree is saved
after every stage that succeeds, numbered across the whole train.

The work on a tree has two phases. Transforming depends on the tree alone, so its
result may be kept; validating checks a tree against the gates in force and is
always done.
-/

set_option autoImplicit false

namespace Trainyard

structure Optimization where
  transform : Tree → Job WorkError Tree
  validate : Tree → Job WorkError Tree

namespace Optimization

def apply (o : Optimization) (t : Tree) : Job WorkError Tree := do
  o.validate (← o.transform t)

def unchecked (o : Optimization) : Optimization := { o with validate := pure }

end Optimization

namespace Tree

def anonymous : String := "_anonymous"

def nameOrAnonymous (t : Tree) : String := t.name?.getD anonymous

def place (t : Tree) : Except PlaceError Place := Place.ofName t.nameOrAnonymous

end Tree

inductive Station where
  | content (step : Step)
  | gate (gate : Gate)

namespace Station

def name : Station → String
  | .content s => s.name
  | .gate g => g.name

def apply : Station → Tree → Except StepFailure Tree
  | .content s => s.apply
  | .gate g => g.apply

def isContent : Station → Bool
  | .content _ => true
  | .gate _ => false

def pass (s : Station) (t : Tree) : Except StructuralFailure Tree :=
  (s.apply t).mapError fun failure => ⟨s.name, failure.message, t.errors.toList⟩

def announce (s : Station) (t : Tree) : Job WorkError Unit := do
  Job.tell (.applying s.name t.nameOrAnonymous)
  if s.isContent then Job.countApplication else pure ()

end Station

structure Train where
  steps : List Step := []
  gates : List Gate := []
  snapshots : Option Path := none

namespace Train

def addStep (tr : Train) (s : Step) : Train := { tr with steps := tr.steps ++ [s] }

def addSteps (tr : Train) (ss : List Step) : Train := { tr with steps := tr.steps ++ ss }

def addGate (tr : Train) (g : Gate) : Train := { tr with gates := tr.gates ++ [g] }

def withSnapshots (tr : Train) (dir : Path) : Train := { tr with snapshots := some dir }

def ofConfig (steps : List Step) (c : Config.Optimize) (l : Layout) : Train where
  steps := steps
  gates := Gate.ofConfig c
  snapshots := if c.trackSteps then some l.stepsDir else none

def contentStations (tr : Train) : List Station := tr.steps.map .content

def gateStations (tr : Train) : List Station := tr.gates.map .gate

def stationNames (tr : Train) : List String :=
  (tr.contentStations ++ tr.gateStations).map Station.name

def isFileSafe (c : Char) : Bool :=
  ('a' ≤ c ∧ c ≤ 'z') ∨ ('A' ≤ c ∧ c ≤ 'Z') ∨ ('0' ≤ c ∧ c ≤ '9') ∨ c = '-' ∨ c = '_'

def fileSafe (name : String) : String :=
  String.ofList (name.toList.map fun c => if isFileSafe c then c else '-')

def padded (n : Nat) : String :=
  let digits := Nat.toDigits 10 n
  String.ofList (List.replicate (3 - digits.length) '0' ++ digits)

def snapshotName (position : Nat) (station : String) : String :=
  padded position ++ "-" ++ fileSafe station ++ ".json"

def saveSnapshot (snapshots : Option Path) (position : Nat) (station : String) (t : Tree) :
    Job WorkError Unit :=
  match snapshots with
  | none => pure ()
  | some dir => do
    let place ← Job.ofExcept .place t.place
    let path := (place.within dir "").child (snapshotName position station)
    Job.adapt .tree (t.save path)
    Job.tell (.snapshotSaved position station path)

def run (snapshots : Option Path) : Nat → List Station → Tree → Job WorkError Tree
  | _, [], t => pure t
  | position, s :: ss, t => do
    s.announce t
    let t' ← Job.ofExcept .structural (s.pass t)
    saveSnapshot snapshots position s.name t'
    run snapshots (position + 1) ss t'

def transform (tr : Train) (t : Tree) : Job WorkError Tree :=
  run tr.snapshots 1 tr.contentStations t

def validate (tr : Train) (t : Tree) : Job WorkError Tree :=
  run tr.snapshots (tr.steps.length + 1) tr.gateStations t

def optimization (tr : Train) : Optimization := ⟨tr.transform, tr.validate⟩

end Train

end Trainyard
