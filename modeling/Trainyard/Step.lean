import Trainyard.Config
import Trainyard.Tree

/-!
# Steps and gates

A step is a named function on trees. It reports on a program by adding
diagnostics, and fails only when it has no tree to give. A gate is a step that
fails on diagnostics of one severity and changes nothing.
-/

set_option autoImplicit false

namespace Trainyard

structure StepFailure where
  message : String
  deriving DecidableEq

structure Step where
  name : String
  apply : Tree → Except StepFailure Tree

structure Gate where
  severity : Severity
  deriving DecidableEq

namespace Gate

def name (g : Gate) : String :=
  match g.severity with
  | .error => "fail-on-errors"
  | .warning => "fail-on-warnings"
  | .critical => "fail-on-critical"

def apply (g : Gate) (t : Tree) : Except StepFailure Tree :=
  match t.count g.severity with
  | 0 => .ok t
  | n => .error ⟨s!"{n} {g.severity.name}(s) found"⟩

def ofConfig (c : Config.Optimize) : List Gate :=
  (if c.failOnError then [⟨.error⟩] else []) ++ (if c.failOnWarning then [⟨.warning⟩] else []) ++
    (if c.failOnCritical then [⟨.critical⟩] else [])

end Gate

end Trainyard
