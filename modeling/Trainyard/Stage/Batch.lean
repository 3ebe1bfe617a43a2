import Trainyard.Memo
import Trainyard.Program

/-!
# Batches

A stage sorts its programs once, before any work: those out of its scope, those
whose output is fresh, and those that are due. The due ones are worked on one
after the other; a failure concerns its program only. The report accounts for
every program in scope.

A pool of workers that share the programs among themselves is left out. It is
taken to start always, so no stage fails for want of it.
-/

set_option autoImplicit false

namespace Trainyard.Stage

inductive Standing where
  | outOfScope
  | fresh
  | due
  deriving DecidableEq

inductive Outcome where
  | recomputed
  -- the result was not good enough to be recorded
  | withheld
  deriving DecidableEq

inductive Fate where
  | outOfScope
  | skipped
  | worked (result : Except WorkError Outcome)

structure Line where
  program : Program
  fate : Fate

structure Failure where
  program : String
  cause : WorkError
  deriving DecidableEq

structure Report where
  total : Nat := 0
  skipped : Nat := 0
  recomputed : Nat := 0
  withheld : Nat := 0
  failures : List Failure := []
  deriving DecidableEq

namespace Report

def isSuccess (r : Report) : Bool := r.failures.isEmpty

def add (r : Report) (line : Line) : Report :=
  match line.fate with
  | .outOfScope => r
  | .skipped => { r with total := r.total + 1, skipped := r.skipped + 1 }
  | .worked (.ok .recomputed) => { r with total := r.total + 1, recomputed := r.recomputed + 1 }
  | .worked (.ok .withheld) => { r with total := r.total + 1, withheld := r.withheld + 1 }
  | .worked (.error e) =>
    { r with total := r.total + 1, failures := r.failures ++ [⟨line.program.name, e⟩] }

end Report

abbrev Ledger := List Line

namespace Ledger

def programs (l : Ledger) : List Program := l.map (·.program)

def report (l : Ledger) : Report := l.foldl Report.add {}

end Ledger

abbrev Plan := List (Program × Standing)

namespace Plan

def make (standing : Program → Standing) (ps : List Program) : Plan :=
  ps.map fun p => (p, standing p)

def select (plan : Plan) (s : Standing) : List Program :=
  (plan.filter (·.2 = s)).map (·.1)

end Plan

/-- Works on a program that is due. A failure is told and leaves the record as it was. -/
def settle (task : Program → Job WorkError (Outcome × Program)) (p : Program) :
    Standing → Job WorkError Line
  | .outOfScope => pure ⟨p, .outOfScope⟩
  | .fresh => pure ⟨p, .skipped⟩
  | .due => do
    match ← Job.attempt (task p) with
    | .ok (outcome, p') => pure ⟨p', .worked (.ok outcome)⟩
    | .error e => do
      Job.tell (.programFailed p.name e)
      pure ⟨p, .worked (.error e)⟩

def execute (task : Program → Job WorkError (Outcome × Program)) : Plan → Job WorkError Ledger
  | [] => pure []
  | (p, standing) :: plan => do
    let line ← settle task p standing
    let ledger ← execute task plan
    pure (line :: ledger)

def tellAll {ε : Type} (events : List Event) : Job ε Unit := events.forM Job.tell

def applyTo (o : Optimization) (cache : Path) (p : Program) (t : Tree) : Job WorkError Tree :=
  match p.digest with
  | some d => (Memo.optimization { inner := o, dir := cache.child d.toHex }).apply t
  | none => o.apply t

end Trainyard.Stage
