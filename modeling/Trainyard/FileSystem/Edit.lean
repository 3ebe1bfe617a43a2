import Trainyard.FileSystem

/-!
# Editing and listing files

Changes to parts of a file, removal, times set by hand, and the ordered list of
everything in the working directory.
-/

set_option autoImplicit false

namespace Trainyard.FileSystem

def edit (fs : FileSystem) (p : Path) (f : ByteArray → ByteArray) :
    Except OsError FileSystem := do
  match ← fs.find p with
  | (k, .file b _) => .ok (fs.alter (fun _ => .file (f b) fs.now) k)
  | (_, .directory ..) => .error .isADirectory

def pad : Nat → ByteArray → ByteArray
  | 0, b => b
  | n + 1, b => pad n (b.push 0)

def resize (size : Nat) (b : ByteArray) : ByteArray := pad (size - b.size) (b.extract 0 size)

def overwrite (offset : Nat) (new b : ByteArray) : ByteArray :=
  resize offset b ++ new ++ b.extract (offset + new.size) b.size

def emptied (t : Nat) : Entry → Entry
  | .file b _ => .file b t
  | .directory .. => .directory [] t

def removeAll (fs : FileSystem) (p : Path) : Except OsError Unit × FileSystem :=
  match fs.find p, fs.locate p with
  | .ok _, .ok (.child s name _) => (.ok (), fs.remove s.key name)
  | .ok (k, _), _ => (.error .invalidArgument, fs.alter (emptied fs.now) k)
  | .error e, _ => (.error e, fs)

def setModified (fs : FileSystem) (p : Path) (t : Nat) : Except OsError FileSystem := do
  let (k, _) ← fs.find p
  .ok (fs.alter (·.withModified t) k)

def writeDeep (fs : FileSystem) (p : Path) (b : ByteArray) : Except OsError Unit × FileSystem :=
  let (made, fs) := match p.parent? with
    | some dir => fs.makeDirectories dir
    | none => (.ok (), fs)
  match made with
  | .error e => (.error e, fs)
  | .ok () =>
    match fs.write p b with
    | .error e => (.error e, fs)
    | .ok fs => (.ok (), fs)

end Trainyard.FileSystem

namespace Trainyard.Entry

mutual

def contents (start : String) : Entry → List (String × Entry)
  | .file .. => []
  | .directory es _ => contentsAll start es

def contentsAll (start : String) : List (String × Entry) → List (String × Entry)
  | [] => []
  | (n, e) :: es => (start ++ n, e) :: (contents (start ++ n ++ "/") e ++ contentsAll start es)

end

mutual

def restamp (since new : Nat) : Entry → Entry
  | .file b t => .file b (if since ≤ t then new else t)
  | .directory es t => .directory (restampAll since new es) (if since ≤ t then new else t)

def restampAll (since new : Nat) : List (String × Entry) → List (String × Entry)
  | [] => []
  | (n, e) :: es => (n, restamp since new e) :: restampAll since new es

end

end Trainyard.Entry

namespace Trainyard.FileSystem

def contents (fs : FileSystem) : List (String × Entry) :=
  match fs.get? fs.working with
  | some e => e.contents ""
  | none => []

def sortByPath {α : Type} (es : List (String × α)) : List (String × α) :=
  es.mergeSort fun a b => decide (a.1 ≤ b.1)

def listing (fs : FileSystem) : List (String × Entry) := sortByPath fs.contents

def fileListing (fs : FileSystem) : List (String × ByteArray) :=
  sortByPath (fs.contents.filterMap fun
    | (p, .file b _) => some (p, b)
    | (_, .directory ..) => none)

def filesChangedSince (fs : FileSystem) (since : Nat) : List String :=
  (sortByPath (fs.contents.filter fun e => !e.2.isDirectory && since ≤ e.2.modified)).map (·.1)

def restamp (fs : FileSystem) (since new : Nat) : FileSystem :=
  { fs with root := fs.root.restamp since new }

end Trainyard.FileSystem
