import Trainyard.Artifact.Store
import Trainyard.Tree.Binary
import Trainyard.Train

/-!
# Remembered transformations

A memo keeps the result of a transformation as an artifact at the tree's place
in a directory, which is to be named after the content the tree was made from.
Only the transformation is remembered; validation is done every time, and a
failure is never stored.
-/

set_option autoImplicit false

namespace Trainyard

structure Memo where
  inner : Optimization
  dir : Path
  counted : Bool := true

namespace Memo

def producer : String := "0.1.0"

def store (m : Memo) : Artifact.Store := ⟨m.dir, producer⟩

inductive Lookup where
  | hit (t : Tree)
  | miss
  | undecodable

namespace Lookup

def isHit : Lookup → Bool
  | .hit _ => true
  | _ => false

end Lookup

def lookup (m : Memo) (relative : Path) : Job WorkError Lookup := do
  match ← m.store.read relative with
  | none => pure .miss
  | some payload =>
    match Tree.ofBinary payload with
    | .ok t => do
      Job.tell (.cacheHit relative m.dir)
      pure (.hit t)
    | .error e => do
      Job.tell (.entryUndecodable relative (.encoding e))
      pure .undecodable

/-- Stores a result. An artifact that does not decode is replaced; otherwise a good one that
appeared in the meantime is left alone. -/
def record (m : Memo) (relative : Path) (replace : Bool) (t : Tree) : Job WorkError Unit :=
  Job.adapt .cache <|
    if replace then do
      let _ ← m.store.write relative t.toBinary
      pure ()
    else do
      let _ ← m.store.writeOnce relative t.toBinary
      pure ()

def count (m : Memo) (hit : Bool) : Job WorkError Unit :=
  if m.counted then (if hit then Job.countHit else Job.countMiss) else pure ()

def compute (m : Memo) (relative : Path) (replace : Bool) (t : Tree) : Job WorkError Tree := do
  let result ← m.inner.transform t
  m.record relative replace result
  pure result

def transform (m : Memo) (t : Tree) : Job WorkError Tree := do
  let place ← Job.ofExcept .place t.place
  let relative := place.relative "tree"
  let answer ← m.lookup relative
  m.count answer.isHit
  match answer with
  | .hit found => pure found
  | .miss => m.compute relative false t
  | .undecodable => m.compute relative true t

def optimization (m : Memo) : Optimization := ⟨m.transform, m.inner.validate⟩

end Memo

end Trainyard
