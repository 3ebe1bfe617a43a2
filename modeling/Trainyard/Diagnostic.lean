/-!
# Diagnostics

What a step has to say about a tree: how bad it is, a message, and optionally a
position in the source and the step that spoke.
-/

set_option autoImplicit false

namespace Trainyard

inductive Severity where
  | warning
  | error
  | critical
  deriving DecidableEq, Repr

namespace Severity

def name : Severity → String
  | .warning => "warning"
  | .error => "error"
  | .critical => "critical"

def all : List Severity := [.warning, .error, .critical]

def ofName? (s : String) : Option Severity := all.find? (·.name = s)

def rank : Severity → Nat
  | .warning => 0
  | .error => 1
  | .critical => 2

def ofRank? (n : Nat) : Option Severity := all.find? (·.rank = n)

def isError (s : Severity) : Bool := s = .error

def worse (a b : Severity) : Severity := if a.rank ≤ b.rank then b else a

theorem ofName?_name (s : Severity) : ofName? s.name = some s := by
  cases s <;> decide

theorem ofRank?_rank (s : Severity) : ofRank? s.rank = some s := by
  cases s <;> decide

end Severity

structure Location where
  line : UInt32
  column : UInt32
  deriving DecidableEq, Repr

namespace Location

def text (l : Location) : String := s!"{l.line.toNat}:{l.column.toNat}"

end Location

structure Diagnostic where
  severity : Severity
  message : String
  location : Option Location
  step : Option String
  deriving DecidableEq, Repr

namespace Diagnostic

def text (d : Diagnostic) : String :=
  let position := match d.location with
    | some l => " at " ++ l.text
    | none => ""
  let step := match d.step with
    | some s => " [" ++ s ++ "]"
    | none => ""
  d.severity.name ++ position ++ step ++ ": " ++ d.message

end Diagnostic

end Trainyard
