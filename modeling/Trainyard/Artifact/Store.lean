import Trainyard.Job

/-!
# Artifact stores

A store keeps artifacts below a root directory, each at a relative path. A new
artifact is completed under another name and moved into place, so a reader finds
none or a whole one.
-/

set_option autoImplicit false

namespace Trainyard.Artifact

structure Store where
  root : Path
  producer : String
  deriving DecidableEq

namespace Store

def pathOf (s : Store) (relative : Path) : Path := s.root.join relative

def inspect (s : Store) (fs : FileSystem) (relative : Path) : Except CacheError Bytes :=
  let path := s.pathOf relative
  match fs.read path with
  | .error e => .error (.io path e)
  | .ok raw =>
    match decode (Bytes.unpack raw) with
    | .error e => .error (.fault path e)
    | .ok payload => .ok payload

def read {ε : Type} (s : Store) (relative : Path) : Job ε (Option Bytes) := do
  match s.inspect (← Job.files) relative with
  | .ok payload => pure (some payload)
  | .error e =>
    if e.isNotFound then pure none
    else do
      Job.tell (.entryUnusable e)
      pure none

/-- Stores a payload in place of whatever stood there. The file is completed under a passing
name in its directory, which therefore changes even if the move then fails. -/
def write (s : Store) (relative : Path) (payload : Bytes) : Job CacheError Path := do
  let path := s.pathOf relative
  let dir := path.parent?.getD s.root
  Job.makeDirectories (.io dir) dir
  Job.change (.io dir) (·.disturb dir)
  Job.change (.io path) (·.replace path (encode s.producer payload).pack)
  pure path

def writeOnce (s : Store) (relative : Path) (payload : Bytes) : Job CacheError Bool := do
  match s.inspect (← Job.files) relative with
  | .ok _ => pure false
  | .error _ => do
    let _ ← s.write relative payload
    pure true

end Store

end Trainyard.Artifact
