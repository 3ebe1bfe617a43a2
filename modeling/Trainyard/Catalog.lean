import Trainyard.Job
import Trainyard.Program

/-!
# Catalogs

The programs known to the pipeline, by name and in the order they were first
added. A catalog is kept as a JSON file between runs.
-/

set_option autoImplicit false

namespace Trainyard

structure Catalog where
  programs : List Program := []
  deriving DecidableEq

namespace Catalog

open Json (Value Fields)

def replaceFirst (p : Program) : List Program → List Program
  | [] => [p]
  | q :: qs => if q.name = p.name then p :: qs else q :: replaceFirst p qs

def add (c : Catalog) (p : Program) : Catalog := ⟨replaceFirst p c.programs⟩

def get? (c : Catalog) (name : String) : Option Program := c.programs.find? (·.name = name)

theorem find?_replaceFirst (p : Program) (name : String) (ps : List Program) :
    (replaceFirst p ps).find? (·.name = name) =
      if name = p.name then some p else ps.find? (·.name = name) := by
  induction ps with
  | nil =>
    by_cases h : name = p.name
    · simp [replaceFirst, h]
    · simp [replaceFirst, h, Ne.symm h]
  | cons q qs ih =>
    rw [replaceFirst]
    by_cases hq : q.name = p.name
    · by_cases h : name = p.name
      · simp [hq, h]
      · simp [hq, h, Ne.symm h]
    · rw [if_neg hq]
      by_cases h : q.name = name
      · simp [h, show name ≠ p.name from fun e => hq (h.trans e)]
      · simp only [List.find?_cons, h, decide_false, ih]

theorem get?_add (c : Catalog) (p : Program) (name : String) :
    (c.add p).get? name = if name = p.name then some p else c.get? name :=
  find?_replaceFirst p name c.programs

def select (c : Catalog) (s : Scope) : List Program := c.programs.filter (·.scope = s)

def size (c : Catalog) : Nat := c.programs.length

def isEmpty (c : Catalog) : Bool := c.programs.isEmpty

def toJson (c : Catalog) : Value := .record [("units", .array (c.programs.map Program.toJson))]

def ofJson? : Nat → Value → Option Catalog
  | 0, _ => none
  | room + 1, v => do
    let f ← Fields.ofValue? ["units"] (room + 1) v
    some ⟨← f.defaulted 0 (Value.asList? Program.ofJson? room) []⟩

def parse? (s : String) : Option Catalog := (Json.parse? s).bind (ofJson? Value.room)

def load (p : Path) : Job WorkError Catalog := do
  match parse? (← Job.ask (.io p) (·.readText p)) with
  | some c => pure c
  | none => Job.fail (.catalog p)

def loadOrEmpty (p : Path) : Job WorkError Catalog := do
  if (← Job.files).present p then load p else pure {}

def save (c : Catalog) (p : Path) : Job WorkError Unit := Job.writeText .io p c.toJson.render

end Catalog

end Trainyard
