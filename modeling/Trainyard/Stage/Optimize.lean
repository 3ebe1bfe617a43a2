import Trainyard.Catalog
import Trainyard.Stage.Batch

/-!
# The optimize stage

Sends the parsed tree of every due program of the scope through a train and
saves the result. A tree with errors is withheld when errors are to fail.
-/

set_option autoImplicit false

namespace Trainyard.Stage

structure Optimize where
  train : Optimization
  config : Config.Optimize
  layout : Layout

namespace Optimize

def ofConfig (steps : List Step) (c : Config.Optimize) (l : Layout) : Optimize :=
  ⟨(Train.ofConfig steps c l).optimization, c, l⟩

def standing (s : Optimize) (fs : FileSystem) (p : Program) : Standing :=
  if p.scope ≠ s.config.scope then .outOfScope
  else if p.needsOptimization fs then .due
  else .fresh

def accepts (s : Optimize) (t : Tree) : Bool := !t.has .error || !s.config.failOnError

def output (s : Optimize) (place : Place) : Path := place.within s.layout.optimizeDir "json"

def deliver (s : Optimize) (p : Program) (place : Place) (result : Tree) :
    Job WorkError (Outcome × Program) :=
  if s.accepts result then do
    Job.adapt .tree (result.save (s.output place))
    Job.tell (.optimized p.intermediate p.name (s.output place))
    pure (.recomputed, { p with optimized := some (s.output place) })
  else do
    Job.tell (.withheld p.name (result.count .error))
    pure (.withheld, p)

def task (s : Optimize) (p : Program) : Job WorkError (Outcome × Program) := do
  let place ← Job.ofExcept .place p.place
  let tree ← Job.adapt .tree (Tree.load p.intermediate)
  let result ← applyTo s.train s.layout.optimizedCacheDir p tree
  s.deliver p place result

def prepare (s : Optimize) (ps : List Program) : Job WorkError Unit := do
  Job.makeDirectories (.io s.layout.optimizeDir) s.layout.optimizeDir
  if ps.any (·.digest.isSome) then
    Job.makeDirectories (.io s.layout.optimizedCacheDir) s.layout.optimizedCacheDir

def pass (s : Optimize) (ps : List Program) : Job WorkError Ledger := do
  s.prepare ps
  let plan := Plan.make (s.standing (← Job.files)) ps
  tellAll ((plan.select .fresh).map fun p =>
    .alreadyOptimized p.intermediate (p.optimized.getD ⟨""⟩))
  tellAll ((plan.select .due).map fun p => .optimizationAdded p.intermediate)
  Job.tell (.optimizationsRunning (plan.select .due).length)
  execute s.task plan

def run (s : Optimize) (ps : List Program) : Job WorkError (Report × List Program) := do
  let ledger ← s.pass ps
  let report := ledger.report
  Job.tell (if report.recomputed = 0 then .optimizedNone report.total
    else .optimizedSome report.recomputed report.total)
  pure (report, ledger.programs)

end Optimize

end Trainyard.Stage
