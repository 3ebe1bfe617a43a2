import Trainyard.Named
import Trainyard.Path

/-!
# Files and directories

A file system is a value: a tree of directories and files under one root, with a
working directory somewhere in it. Every entry has a time of last change, and
`now` is the time that changes made next will carry.

Paths are walked component by component, so a missing or misplaced directory on
the way is found at the component where it matters. Relative paths start from
the working directory and absolute ones from the root, which is its own parent.
-/

set_option autoImplicit false

namespace Trainyard

inductive OsError where
  | notFound
  | busy
  | alreadyExists
  | notADirectory
  | isADirectory
  | invalidArgument
  | nameTooLong
  | nulInName
  | notText
  deriving DecidableEq, Repr

namespace OsError

def message : OsError → String
  | .notFound => "No such file or directory (os error 2)"
  | .busy => "Device or resource busy (os error 16)"
  | .alreadyExists => "File exists (os error 17)"
  | .notADirectory => "Not a directory (os error 20)"
  | .isADirectory => "Is a directory (os error 21)"
  | .invalidArgument => "Invalid argument (os error 22)"
  | .nameTooLong => "File name too long (os error 36)"
  | .nulInName => "file name contained an unexpected NUL byte"
  | .notText => "stream did not contain valid UTF-8"

end OsError

inductive Entry where
  | file (content : ByteArray) (modified : Nat)
  | directory (entries : List (String × Entry)) (modified : Nat)

abbrev Key := List String

namespace Entry

def modified : Entry → Nat
  | .file _ t => t
  | .directory _ t => t

def withModified (t : Nat) : Entry → Entry
  | .file b _ => .file b t
  | .directory es _ => .directory es t

def disturbed (t : Nat) : Entry → Entry
  | .file b s => .file b s
  | .directory es _ => .directory es t

def isDirectory : Entry → Bool
  | .file .. => false
  | .directory .. => true

def child? (name : String) : Entry → Option Entry
  | .file .. => none
  | .directory es _ => es.lookup name

def put (d : Entry) (name : String) (c : Entry) : Entry :=
  match d with
  | .file b t => .file b t
  | .directory es t => .directory (Named.put es name c) t

def erase (name : String) : Entry → Entry
  | .file b t => .file b t
  | .directory es t => .directory (Named.erase es name) t

def get? : Key → Entry → Option Entry
  | [], e => some e
  | n :: k, e =>
    match e.child? n with
    | some c => get? k c
    | none => none

def alter (f : Entry → Entry) : Key → Entry → Entry
  | [], e => f e
  | n :: k, e =>
    match e.child? n with
    | some c => e.put n (alter f k c)
    | none => e

theorem child?_put (name other : String) (c : Entry) (es : List (String × Entry)) (t : Nat) :
    ((directory es t).put name c).child? other =
      if other = name then some c else (directory es t).child? other :=
  Named.lookup_put es name other c

theorem get?_append (k k' : Key) (e : Entry) : get? (k ++ k') e = (get? k e).bind (get? k') := by
  induction k generalizing e with
  | nil => rfl
  | cons n k ih =>
    rw [List.cons_append, get?, get?]
    cases e.child? n with
    | none => rfl
    | some c => exact ih c

end Entry

structure FileSystem where
  root : Entry
  working : Key
  now : Nat

namespace FileSystem

def fresh (working : Key) : FileSystem where
  root := working.foldr (fun n e => .directory [(n, e)] 0) (.directory [] 0)
  working := working
  now := 0

def get? (fs : FileSystem) (k : Key) : Option Entry := fs.root.get? k

def alter (fs : FileSystem) (f : Entry → Entry) (k : Key) : FileSystem :=
  { fs with root := fs.root.alter f k }

def set (fs : FileSystem) (parent : Key) (name : String) (e : Entry) : FileSystem :=
  fs.alter (·.put name e) parent

def add (fs : FileSystem) (parent : Key) (name : String) (e : Entry) : FileSystem :=
  fs.alter (fun d => (d.put name e).withModified fs.now) parent

def remove (fs : FileSystem) (parent : Key) (name : String) : FileSystem :=
  fs.alter (fun d => (d.erase name).withModified fs.now) parent

def stamp (fs : FileSystem) (k : Key) : FileSystem := fs.alter (·.disturbed fs.now) k

/-- A directory on a walk: the names that lead to it, the last one first, and what is there. -/
structure Spot where
  names : List String
  here : Entry

def nameLimit : Nat := 255

def pathLimit : Nat := 4096

namespace Spot

def key (s : Spot) : Key := s.names.reverse

def up (root : Entry) (s : Spot) : Spot :=
  ⟨s.names.tail, (root.get? s.names.tail.reverse).getD root⟩

def look (s : Spot) (name : String) : Except OsError (Option Entry) :=
  if nameLimit < name.utf8ByteSize then .error .nameTooLong else .ok (s.here.child? name)

end Spot

def walk (root : Entry) : Spot → List String → Except OsError Spot
  | s, [] => .ok s
  | s, c :: cs =>
    if c = "." then walk root s cs
    else if c = ".." then walk root (s.up root) cs
    else match s.look c with
      | .error e => .error e
      | .ok none => .error .notFound
      | .ok (some (.file ..)) => .error .notADirectory
      | .ok (some d) => walk root ⟨c :: s.names, d⟩ cs

/-- Where a path leads: to a directory on the walk itself, or to a name in one, with or
without a slash after it. -/
inductive Target where
  | spot (s : Spot)
  | child (s : Spot) (name : String) (slash : Bool)

def start (fs : FileSystem) (p : Path) : Except OsError Spot :=
  let k := if p.isAbsolute then [] else fs.working
  match fs.get? k with
  | some (.directory es t) => .ok ⟨k.reverse, .directory es t⟩
  | _ => .error .notFound

def follow (fs : FileSystem) (s : Spot) (slash : Bool) : List String → Except OsError Target
  | [] => .ok (.spot s)
  | name :: before =>
    match walk fs.root s before.reverse with
    | .error e => .error e
    | .ok s =>
      if name = "." then .ok (.spot s)
      else if name = ".." then .ok (.spot (s.up fs.root))
      else .ok (.child s name slash)

def locate (fs : FileSystem) (p : Path) : Except OsError Target :=
  if p.isEmpty then .error .notFound
  else if pathLimit ≤ p.text.utf8ByteSize then .error .nameTooLong
  else do fs.follow (← fs.start p) p.endsInSlash p.components.reverse

def checked (p : Path) : Except OsError Unit :=
  if p.text.toList.contains '\x00' then .error .nulInName else .ok ()

def Target.entry : Target → Except OsError (Key × Entry)
  | .spot s => .ok (s.key, s.here)
  | .child s name slash => do
    match ← s.look name with
    | none => .error .notFound
    | some (.file b t) =>
      if slash then .error .notADirectory else .ok (s.key ++ [name], .file b t)
    | some d => .ok (s.key ++ [name], d)

def find (fs : FileSystem) (p : Path) : Except OsError (Key × Entry) := do
  checked p
  (← fs.locate p).entry

def stat (fs : FileSystem) (p : Path) : Except OsError Entry := (fs.find p).map (·.2)

def read (fs : FileSystem) (p : Path) : Except OsError ByteArray := do
  match ← fs.stat p with
  | .file b _ => .ok b
  | .directory .. => .error .isADirectory

def readText (fs : FileSystem) (p : Path) : Except OsError String := do
  match String.fromUTF8? (← fs.read p) with
  | some s => .ok s
  | none => .error .notText

def present (fs : FileSystem) (p : Path) : Bool :=
  match fs.stat p with
  | .ok _ => true
  | .error _ => false

def isFile (fs : FileSystem) (p : Path) : Bool :=
  match fs.stat p with
  | .ok (.file ..) => true
  | _ => false

def isDirectory (fs : FileSystem) (p : Path) : Bool :=
  match fs.stat p with
  | .ok (.directory ..) => true
  | _ => false

def modified? (fs : FileSystem) (p : Path) : Option Nat :=
  match fs.stat p with
  | .ok e => some e.modified
  | .error _ => none

/-- Writes a file in place, creating it in its directory if it is new. A slash at the end asks
for a directory and is refused before the name is looked at. -/
def write (fs : FileSystem) (p : Path) (b : ByteArray) : Except OsError FileSystem := do
  checked p
  match ← fs.locate p with
  | .spot _ => .error .isADirectory
  | .child s name slash =>
    if slash then .error .isADirectory
    else match ← s.look name with
      | some (.directory ..) => .error .isADirectory
      | some (.file ..) => .ok (fs.set s.key name (.file b fs.now))
      | none => .ok (fs.add s.key name (.file b fs.now))

def replace (fs : FileSystem) (p : Path) (b : ByteArray) : Except OsError FileSystem := do
  if p.text.toList.contains '\x00' then .error .invalidArgument
  match ← fs.locate p with
  | .spot _ => .error .busy
  | .child s name slash =>
    let there ← s.look name
    if slash then .error .notADirectory
    else match there with
      | some (.directory ..) => .error .isADirectory
      | _ => .ok (fs.add s.key name (.file b fs.now))

def passingName : String := ".tmpXXXXXX"

def passing (working : Key) (dir : Path) : Path := (dir.absolute working).child passingName

/-- A passing file is made in a directory and taken away again, which leaves the directory
changed. Its path may be too long where that of the directory is not. -/
def disturb (fs : FileSystem) (dir : Path) : Except OsError FileSystem := do
  checked dir
  if pathLimit ≤ (passing fs.working dir).text.utf8ByteSize then .error .nameTooLong
  else do
    let s ← walk fs.root (← fs.start dir) dir.components
    .ok (fs.stamp s.key)

def makeAt (fs : FileSystem) : Target → Except OsError FileSystem
  | .spot _ => .error .alreadyExists
  | .child s name _ => do
    match ← s.look name with
    | some _ => .error .alreadyExists
    | none => .ok (fs.add s.key name (.directory [] fs.now))

def ensure (fs : FileSystem) (target : Except OsError Target) : Except OsError FileSystem :=
  match target >>= fs.makeAt, target >>= Target.entry with
  | .error _, .ok (_, .directory ..) => .ok fs
  | made, _ => made

def ensureBelow (fs : FileSystem) (target : FileSystem → Except OsError Target)
    (above : FileSystem → Except OsError Unit × FileSystem) : Except OsError Unit × FileSystem :=
  match fs.ensure (target fs) with
  | .ok made => (.ok (), made)
  | .error .notFound =>
    match above fs with
    | (.error e, fs) => (.error e, fs)
    | (.ok (), fs) =>
      match fs.ensure (target fs) with
      | .ok made => (.ok (), made)
      | .error e => (.error e, fs)
  | .error e => (.error e, fs)

def makeAlong (start : FileSystem → Except OsError Spot) :
    List String → FileSystem → Except OsError Unit × FileSystem
  | [], fs => (.ok (), fs)
  | name :: outer, fs =>
    fs.ensureBelow (fun fs => do fs.follow (← start fs) false (name :: outer))
      (makeAlong start outer)

/-- Makes a directory and all that are missing above it. Those made before a failure stay. -/
def makeDirectories (fs : FileSystem) (p : Path) : Except OsError Unit × FileSystem :=
  if p.isEmpty then (.ok (), fs)
  else fs.ensureBelow (fun fs => do checked p; fs.locate p)
    (makeAlong (fun fs => fs.start p) p.names.tail)

end FileSystem

end Trainyard
