import Trainyard.FileSystem
import Trainyard.Text.Blank
import Trainyard.Toml.Document
import Trainyard.Tree

/-!
# Configuration

A TOML document with a required section `project` and the optional ones `paths`,
`optimize` and `binarize`. Every field but the project's name has a default. A
section may also be given as an array of its fields in order.
-/

set_option autoImplicit false

namespace Trainyard

inductive Scope where
  | compile
  | test
  deriving DecidableEq, Repr

namespace Scope

def name : Scope → String
  | .compile => "compile"
  | .test => "test"

def ofName? (s : String) : Option Scope :=
  if s = "compile" then some .compile else if s = "test" then some .test else none

end Scope

namespace Config

structure Project where
  name : String
  version : String := ""
  deriving DecidableEq

structure Paths where
  target : String := "target/eo"
  cache : String := "~/.eo"
  deriving DecidableEq

structure Optimize where
  trackSteps : Bool := false
  failOnError : Bool := true
  failOnWarning : Bool := false
  failOnCritical : Bool := true
  scope : Scope := .compile
  parallelism : Nat := 0
  deriving DecidableEq

structure Binarize where
  enabled : Bool := true
  scope : Scope := .compile
  deriving DecidableEq

end Config

structure Config where
  project : Config.Project
  paths : Config.Paths := {}
  optimize : Config.Optimize := {}
  binarize : Config.Binarize := {}
  deriving DecidableEq

inductive ConfigError where
  | io (cause : OsError)
  | parse
  | missingName
  | emptyPath (field : String)
  | homeUnset
  deriving DecidableEq

namespace ConfigError

def message : ConfigError → String
  | .io cause => s!"failed to read configuration: {cause.message}"
  | .parse => s!"failed to parse configuration: {unspecified}"
  | .missingName => "missing required field: project.name"
  | .emptyPath field => s!"validation error: paths.{field} must not be empty"
  | .homeUnset => "validation error: paths.cache uses '~' but HOME is not set"

end ConfigError

namespace Config

open Toml (Value)

def text? : Value → Option String
  | .string s => some s
  | _ => none

def flag? : Value → Option Bool
  | .boolean b => some b
  | _ => none

def count? : Value → Option Nat
  | .integer n => if 0 ≤ n then some n.toNat else none
  | _ => none

def scope? : Value → Option Scope
  | .string s => Scope.ofName? s
  | .table _ [(s, .table _ [])] => Scope.ofName? s
  | .table _ [(s, .array [])] => Scope.ofName? s
  | _ => none

def ordered (names : List String) (items : List Value) : List (Option Value) :=
  (List.range names.length).map fun i => items[i]?

/-- The values of the named fields of a section. A time, which has fields of its own, counts as
a section with none of these. -/
def fields? (names : List String) : Value → Option (List (Option Value))
  | .table _ t => some (names.map fun n => t.lookup n)
  | .array items => some (ordered names items)
  | .tables last earlier =>
    some (ordered names ((last :: earlier).reverse.map (.table .header)))
  | .dateTime => some (names.map fun _ => none)
  | _ => none

def field {α : Type} (values : List (Option Value)) (i : Nat) (read : Value → Option α)
    (default : α) : Option α :=
  match (values[i]?).join with
  | some v => read v
  | none => some default

def project? (v : Value) : Option Project := do
  let f ← fields? ["name", "version"] v
  let name ← ((f[0]?).join).bind text?
  some { name, version := ← field f 1 text? "" }

def paths? (v : Value) : Option Paths := do
  let f ← fields? ["target", "cache"] v
  let d : Paths := {}
  some { target := ← field f 0 text? d.target, cache := ← field f 1 text? d.cache }

def optimize? (v : Value) : Option Optimize := do
  let f ← fields? ["track_optimization_steps", "fail_on_error", "fail_on_warning",
    "fail_on_critical", "scope", "parallelism"] v
  let d : Optimize := {}
  some {
    trackSteps := ← field f 0 flag? d.trackSteps
    failOnError := ← field f 1 flag? d.failOnError
    failOnWarning := ← field f 2 flag? d.failOnWarning
    failOnCritical := ← field f 3 flag? d.failOnCritical
    scope := ← field f 4 scope? d.scope
    parallelism := ← field f 5 count? d.parallelism }

def binarize? (v : Value) : Option Binarize := do
  let f ← fields? ["enabled", "scope"] v
  let d : Binarize := {}
  some { enabled := ← field f 0 flag? d.enabled, scope := ← field f 1 scope? d.scope }

def ofTable? (t : Toml.Table) : Option Config := do
  let f ← fields? ["project", "paths", "optimize", "binarize"] (.table .header t)
  some {
    project := ← ((f[0]?).join).bind project?
    paths := ← field f 1 paths? {}
    optimize := ← field f 2 optimize? {}
    binarize := ← field f 3 binarize? {} }

def validate (c : Config) : Except ConfigError Config :=
  if c.project.name = "" then .error .missingName
  else if Text.isBlank c.paths.target then .error (.emptyPath "target")
  else if Text.isBlank c.paths.cache then .error (.emptyPath "cache")
  else .ok c

def parse (s : String) : Except ConfigError Config :=
  match (Toml.parse? s).bind ofTable? with
  | some c => validate c
  | none => .error .parse

def fileName : String := "eo.toml"

def load (fs : FileSystem) (dir : Path) : Except ConfigError Config :=
  match fs.readText (dir.child fileName) with
  | .ok s => parse s
  | .error e => .error (.io e)

end Config

end Trainyard
