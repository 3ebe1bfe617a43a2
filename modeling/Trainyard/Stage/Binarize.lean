import Trainyard.Stage.Batch

/-!
# The binarize stage

Sends optimized trees through a train that generates code. The tree, its code
and a snapshot after every station are saved side by side.
-/

set_option autoImplicit false

namespace Trainyard.Stage

structure Binarize where
  train : Train
  config : Config.Binarize
  layout : Layout

namespace Binarize

def dir (s : Binarize) : Path := s.layout.binarizeDir

def optimization (s : Binarize) : Optimization := (s.train.withSnapshots s.dir).optimization

def inScope (s : Binarize) (p : Program) : Bool :=
  p.scope = s.config.scope && p.optimized.isSome

def newer (fs : FileSystem) (out : Nat) (p : Path) : Bool :=
  match fs.modified? p with
  | some input => out < input
  | none => false

def needsCode (fs : FileSystem) (p : Program) (code : Path) : Bool :=
  match fs.modified? code with
  | none => true
  | some out => p.optimized.any (newer fs out) || newer fs out p.source

def treeOutput (s : Binarize) (place : Place) : Path := place.within s.dir "json"

def codeOutput (s : Binarize) (place : Place) : Path := place.within s.dir "rs"

/-- A program without a place is due, so that its task can say what is wrong. -/
def standing (s : Binarize) (fs : FileSystem) (p : Program) : Standing :=
  if s.inScope p then
    match p.place with
    | .ok place => if needsCode fs p (s.codeOutput place) then .due else .fresh
    | .error _ => .due
  else .outOfScope

def task (s : Binarize) (p : Program) : Job WorkError (Outcome × Program) := do
  let place ← Job.ofExcept .place p.place
  match p.optimized with
  | none => Job.fail (.internal ⟨s!"{p.name} was scheduled without an optimized tree"⟩)
  | some input => do
    let tree ← Job.adapt .tree (Tree.load input)
    let result ← applyTo s.optimization s.layout.binarizedCacheDir p tree
    Job.adapt .tree (result.save (s.treeOutput place))
    let code ← Job.ofExcept .tree (result.require Tree.codeKey)
    let target := s.codeOutput place
    Job.change (.io target) (·.write target code.toUTF8)
    Job.tell (.binarized p.name target)
    pure (.recomputed, { p with binarized := some target })

def prepare (s : Binarize) (ps : List Program) : Job WorkError Unit := do
  Job.makeDirectories (.io s.dir) s.dir
  if ps.any (·.digest.isSome) then
    Job.makeDirectories (.io s.layout.binarizedCacheDir) s.layout.binarizedCacheDir

def pass (s : Binarize) (ps : List Program) : Job WorkError Ledger := do
  s.prepare ps
  let plan := Plan.make (s.standing (← Job.files)) ps
  tellAll ((plan.select .fresh).map fun p => .alreadyBinarized p.name)
  execute s.task plan

def run (s : Binarize) (ps : List Program) : Job WorkError (Report × List Program) := do
  if s.config.enabled then do
    let ledger ← s.pass ps
    let report := ledger.report
    Job.tell (.binarizedSome report.recomputed report.total)
    pure (report, ledger.programs)
  else do
    Job.tell .binarizationDisabled
    let total := (ps.filter s.inScope).length
    pure ({ total, skipped := total }, ps)

end Binarize

end Trainyard.Stage
