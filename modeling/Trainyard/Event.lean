import Trainyard.Artifact
import Trainyard.Place

/-!
# Errors and events of a run

What can stop the work on a tree, and what is worth telling about it on the way.
Each event has a level and a text.
-/

set_option autoImplicit false

namespace Trainyard

structure StructuralFailure where
  step : String
  reason : String
  diagnostics : List Diagnostic
  deriving DecidableEq

namespace StructuralFailure

def message (f : StructuralFailure) : String := s!"step '{f.step}' failed: {f.reason}"

end StructuralFailure

structure InternalError where
  reason : String
  deriving DecidableEq

namespace InternalError

def message (e : InternalError) : String := s!"internal pipeline error: {e.reason}"

end InternalError

inductive WorkError where
  | structural (failure : StructuralFailure)
  | tree (cause : TreeError)
  | cache (cause : CacheError)
  | io (path : Path) (cause : OsError)
  | catalog (path : Path)
  | place (cause : PlaceError)
  | internal (cause : InternalError)
  deriving DecidableEq

namespace WorkError

def message : WorkError → String
  | .structural f => f.message
  | .tree e => e.message
  | .cache e => e.message
  | .io path cause => s!"I/O error at {path.text}: {cause.message}"
  | .catalog path => s!"unit catalog {path.text}: {unspecified}"
  | .place e => e.message
  | .internal e => e.message

def diagnostics : WorkError → List Diagnostic
  | .structural f => f.diagnostics
  | _ => []

end WorkError

inductive FetchError where
  | notFound (name : String)
  | io (path : Path) (cause : OsError)
  | unplaceable (cause : PlaceError)
  | remote (name reason : String)
  deriving DecidableEq

namespace FetchError

def message : FetchError → String
  | .notFound name => s!"object '{name}' not found"
  | .io path cause => s!"I/O error at {path.text}: {cause.message}"
  | .unplaceable cause => cause.message
  | .remote name reason => s!"cannot fetch '{name}': {reason}"

end FetchError

inductive Level where
  | trace
  | debug
  | info
  | warn
  deriving DecidableEq

namespace Level

def name : Level → String
  | .trace => "TRACE"
  | .debug => "DEBUG"
  | .info => "INFO"
  | .warn => "WARN"

end Level

inductive Event where
  | applying (step tree : String)
  | snapshotSaved (position : Nat) (step : String) (path : Path)
  | cacheHit (relative root : Path)
  | entryUnusable (cause : CacheError)
  | entryUndecodable (relative : Path) (cause : TreeError)
  | alreadyOptimized (source output : Path)
  | optimizationAdded (source : Path)
  | optimizationsRunning (count : Nat)
  | withheld (program : String) (errors : Nat)
  | optimized (source : Path) (program : String) (output : Path)
  | optimizedSome (count total : Nat)
  | optimizedNone (total : Nat)
  | binarizationDisabled
  | alreadyBinarized (program : String)
  | binarized (program : String) (output : Path)
  | binarizedSome (count total : Nat)
  | programFailed (program : String) (cause : WorkError)
  | sourceSaved (name : String) (path : Path)
  | fallingBack (name : String) (cause : FetchError)
  deriving DecidableEq

namespace Event

def level : Event → Level
  | .applying .. => .trace
  | .entryUnusable _ | .entryUndecodable .. | .withheld .. | .programFailed .. => .warn
  | .optimizationAdded _ | .optimizationsRunning _ | .optimizedSome .. | .binarizationDisabled
  | .binarizedSome .. => .info
  | .snapshotSaved .. | .cacheHit .. | .alreadyOptimized .. | .optimized .. | .optimizedNone _
  | .alreadyBinarized _ | .binarized .. | .sourceSaved .. | .fallingBack .. => .debug

def message : Event → String
  | .applying step tree => s!"applying {step} to {tree}"
  | .snapshotSaved position step path => s!"saved step {position} ({step}) to {path.text}"
  | .cacheHit relative root => s!"cache hit for {relative.text} in {root.text}"
  | .entryUnusable cause => s!"ignoring unusable cache entry: {cause.message}"
  | .entryUndecodable relative cause =>
    s!"discarding undecodable cache entry {relative.text}: {cause.message}"
  | .alreadyOptimized source output => s!"already optimized {source.text} to {output.text}"
  | .optimizationAdded source => s!"adding optimization task for {source.text}"
  | .optimizationsRunning count => s!"running {count} optimizations in parallel"
  | .withheld program errors =>
    s!"{program} has {errors} error(s), its optimized tree is not recorded"
  | .optimized source program output =>
    s!"optimized {source.text} ({program}) to {output.text}"
  | .optimizedSome count total => s!"optimized {count} out of {total} program(s)"
  | .optimizedNone total => s!"no programs out of {total} optimized"
  | .binarizationDisabled => "binarization is disabled"
  | .alreadyBinarized program => s!"already binarized {program}"
  | .binarized program output => s!"binarized {program} to {output.text}"
  | .binarizedSome count total => s!"binarized {count} out of {total} program(s)"
  | .programFailed program cause => s!"{program} failed: {cause.message}"
  | .sourceSaved name path => s!"saved {name} to {path.text}"
  | .fallingBack name cause => s!"falling back for '{name}': {cause.message}"

def line (e : Event) : String := e.level.name ++ " " ++ e.message

end Event

end Trainyard
