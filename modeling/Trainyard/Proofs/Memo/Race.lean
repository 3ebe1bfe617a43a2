import Mathlib.Order.Basic
import Trainyard.Proofs.Memo

/-!
# Racing for one entry

Calls of a memo that are under way at the same time interleave between the actions they
consist of: looking the entry up, transforming, inspecting the entry once more, making its
directory, and moving the new entry into place. Whatever the order, nobody sees anything
but an entry from before the race or a whole new one, and since trees of one place are
equal, it makes no difference whose entry that is.
-/

set_option autoImplicit false

namespace Trainyard

/-! ## Calls cut into actions -/

namespace Artifact.Store

def makeRoom (store : Store) (relative : Path) : Job CacheError Unit := do
  let dir := (store.pathOf relative).parent?.getD store.root
  Job.makeDirectories (.io dir) dir
  Job.change (.io dir) (·.disturb dir)

def moveIn (store : Store) (relative : Path) (payload : Bytes) : Job CacheError Path := do
  let path := store.pathOf relative
  Job.change (.io path) (·.replace path (encode store.producer payload).pack)
  pure path

theorem on_write_eq (store : Store) (relative : Path) (payload : Bytes) (s : Site) :
    (store.write relative payload).on s = (do
      store.makeRoom relative
      store.moveIn relative payload).on s := by
  simp only [write, makeRoom, moveIn, Job.on_bind]
  generalize (Job.makeDirectories _ _).on s = made
  obtain ⟨x, s₁⟩ := made
  cases x with
  | error e => rfl
  | ok u => dsimp only

theorem within_makeRoom {working : Key} {writes : FileSystem.Writes} (store : Store)
    (relative : Path) : Job.Within working writes (store.makeRoom relative) :=
  Job.within_bind (Job.within_makeDirectories _ _) fun _ => Job.within_disturb _ _

theorem on_moveIn_ok {store : Store} {relative path : Path} {payload : Bytes} {s s' : Site}
    (h : (store.moveIn relative payload).on s = (.ok path, s')) :
    FileSystem.SetsFile s.files s'.files ((store.pathOf relative).key s.files.working)
      (encode store.producer payload).pack ∧ s.files.Reaches (store.pathOf relative) := by
  obtain ⟨u, s₁, hchange, h⟩ := Job.on_bind_ok h
  obtain ⟨fs, hreplace, rfl⟩ := Job.on_change_ok hchange
  cases h
  exact FileSystem.replace_ok hreplace

end Artifact.Store

namespace Memo

inductive Phase where
  | start
  -- `replace`: a good artifact with something else in it was found
  | missed (place : Place) (replace : Bool)
  | checking (place : Place) (result : Tree)
  | making (place : Place) (result : Tree)
  | storing (place : Place) (result : Tree)
  | finished (answer : Except WorkError Tree)
  deriving DecidableEq

namespace Phase

def isStoring : Phase → Bool
  | .making .. => true
  | .storing .. => true
  | _ => false

def rank : Phase → Nat
  | .start => 5
  | .missed .. => 4
  | .checking .. => 3
  | .making .. => 2
  | .storing .. => 1
  | .finished _ => 0

end Phase

def action (m : Memo) (t : Tree) : Phase → Job WorkError Phase
  | .start => do
    let place ← Job.ofExcept .place t.place
    let answer ← m.lookup (place.relative "tree")
    m.count answer.isHit
    match answer with
    | .hit found => pure (.finished (.ok found))
    | .miss => pure (.missed place false)
    | .undecodable => pure (.missed place true)
  | .missed place replace => do
    let result ← m.inner.transform t
    pure (if replace then .making place result else .checking place result)
  | .checking place result => do
    match m.store.inspect (← Job.files) (place.relative "tree") with
    | .ok _ => pure (.finished (.ok result))
    | .error _ => pure (.making place result)
  | .making place result => do
    Job.adapt .cache (m.store.makeRoom (place.relative "tree"))
    pure (.storing place result)
  | .storing place result => do
    let _ ← Job.adapt .cache (m.store.moveIn (place.relative "tree") result.toBinary)
    pure (.finished (.ok result))
  | .finished answer => pure (.finished answer)

def advance (m : Memo) (t : Tree) : Nat → Phase → Job WorkError Phase
  | 0, phase => pure phase
  | n + 1, phase => do m.advance t n (← m.action t phase)

section Alone

variable {m : Memo} {t result : Tree} {place : Place}

/-! What each action does. -/

theorem on_start (hplace : t.place = .ok place) (s : Site) :
    ∃ s₁, s₁.files = s.files ∧ (m.action t .start).on s =
      (.ok (match m.seen s.files (place.relative "tree") with
        | .hit found => .finished (.ok found)
        | .miss => .missed place false
        | .undecodable => .missed place true), s₁) := by
  obtain ⟨s₁, hfiles, hlookup⟩ := m.on_lookup (place.relative "tree") s
  refine ⟨{ s₁ with tally := m.tallied (m.seen s.files (place.relative "tree")).isHit s₁.tally },
    hfiles, ?_⟩
  simp only [action, Job.on_bind, Job.on_ofExcept, hplace, mapError_ok, hlookup, m.on_count]
  cases m.seen s.files (place.relative "tree") <;> rfl

theorem on_start_of_unplaced {e : PlaceError} (hplace : t.place = .error e) (s : Site) :
    (m.action t .start).on s = (.error (.place e), s) := by
  simp only [action, Job.on_bind, Job.on_ofExcept, hplace, mapError_error]

theorem on_missed (m : Memo) (t : Tree) (place : Place) (replace : Bool) (s : Site) :
    (m.action t (.missed place replace)).on s =
      (((m.inner.transform t).on s).1.map fun r =>
        if replace then Phase.making place r else .checking place r,
        ((m.inner.transform t).on s).2) := by
  rw [action, Job.on_bind]
  rcases (m.inner.transform t).on s with ⟨x, s₁⟩
  cases x <;> rfl

theorem on_checking (m : Memo) (t : Tree) (place : Place) (result : Tree) (s : Site) :
    (m.action t (.checking place result)).on s =
      (.ok (match m.store.inspect s.files (place.relative "tree") with
        | .ok _ => .finished (.ok result)
        | .error _ => .making place result), s) := by
  simp only [action, Job.on_bind, Job.on_files]
  cases m.store.inspect s.files (place.relative "tree") <;> rfl

theorem on_making (m : Memo) (t : Tree) (place : Place) (result : Tree) (s : Site) :
    (m.action t (.making place result)).on s =
      (((m.store.makeRoom (place.relative "tree")).on s).1.mapError WorkError.cache |>.map
        fun _ => .storing place result, ((m.store.makeRoom (place.relative "tree")).on s).2) := by
  rw [action, Job.on_bind, Job.on_adapt]
  rcases (m.store.makeRoom (place.relative "tree")).on s with ⟨x, s₁⟩
  cases x <;> rfl

theorem on_storing (m : Memo) (t : Tree) (place : Place) (result : Tree) (s : Site) :
    (m.action t (.storing place result)).on s =
      (((m.store.moveIn (place.relative "tree") result.toBinary).on s).1.mapError WorkError.cache
        |>.map fun _ => .finished (.ok result),
        ((m.store.moveIn (place.relative "tree") result.toBinary).on s).2) := by
  rw [action, Job.on_bind, Job.on_adapt]
  rcases (m.store.moveIn (place.relative "tree") result.toBinary).on s with ⟨x, s₁⟩
  cases x <;> rfl

theorem on_advance_finished (m : Memo) (t : Tree) (n : Nat) (answer : Except WorkError Tree)
    (s : Site) : (m.advance t n (.finished answer)).on s = (.ok (.finished answer), s) := by
  induction n with
  | zero => rfl
  | succ n ih =>
    rw [advance, Job.on_bind]
    exact ih

theorem on_advance_making (m : Memo) (t : Tree) (n : Nat) (place : Place) (result : Tree)
    (s : Site) : (m.advance t (n + 2) (.making place result)).on s = (do
      m.record (place.relative "tree") true result
      pure (Phase.finished (.ok result))).on s := by
  simp only [advance, record, if_true, Job.on_bind, Job.on_adapt, Artifact.Store.on_write_eq,
    on_making]
  rcases (m.store.makeRoom (place.relative "tree")).on s with ⟨x, s₁⟩
  cases x with
  | error e => rfl
  | ok u =>
    simp only [mapError_ok, Except.map, on_storing]
    rcases (m.store.moveIn (place.relative "tree") result.toBinary).on s₁ with ⟨y, s₂⟩
    cases y with
    | error e => rfl
    | ok path => exact on_advance_finished m t n (.ok result) s₂

theorem on_advance_checking (m : Memo) (t : Tree) (n : Nat) (place : Place) (result : Tree)
    (s : Site) : (m.advance t (n + 3) (.checking place result)).on s = (do
      m.record (place.relative "tree") false result
      pure (Phase.finished (.ok result))).on s := by
  rw [advance, Job.on_bind, on_checking]
  cases hinspect : m.store.inspect s.files (place.relative "tree") with
  | ok payload =>
    simp only [on_advance_finished, record, Artifact.Store.writeOnce, Bool.false_eq_true, if_false,
      Job.on_bind, Job.on_adapt, Job.on_files, hinspect, Job.on_pure, mapError_ok]
  | error e =>
    simp only [on_advance_making]
    simp only [record, if_true, Bool.false_eq_true, if_false, Job.on_bind, Job.on_adapt,
      Artifact.Store.on_writeOnce_of_inspect hinspect]
    rcases (m.store.write (place.relative "tree") result.toBinary).on s with ⟨x, s₁⟩
    cases x <;> rfl

theorem on_advance_missed (m : Memo) (t : Tree) (place : Place) (replace : Bool) (s : Site) :
    (m.advance t 4 (.missed place replace)).on s = (do
      let result ← m.compute (place.relative "tree") replace t
      pure (Phase.finished (.ok result))).on s := by
  rw [advance, Job.on_bind, on_missed, Job.on_bind, compute, Job.on_bind]
  rcases (m.inner.transform t).on s with ⟨x, s₁⟩
  cases x with
  | error e => rfl
  | ok result =>
    have hrecord : (m.advance t 3 (if replace then .making place result else .checking place result)).on
        s₁ = (do
          m.record (place.relative "tree") replace result
          pure (Phase.finished (.ok result))).on s₁ := by
      cases replace with
      | true => exact on_advance_making m t 1 place result s₁
      | false => exact on_advance_checking m t 0 place result s₁
    refine hrecord.trans ?_
    simp only [Job.on_bind]
    rcases (m.record (place.relative "tree") replace result).on s₁ with ⟨y, s₂⟩
    cases y <;> rfl

/-- A call that nobody disturbs is a transformation. -/
theorem on_advance_start (m : Memo) (t : Tree) (s : Site) : (m.advance t 5 .start).on s = (do
      let result ← m.transform t
      pure (Phase.finished (.ok result))).on s := by
  rw [advance, Job.on_bind, action]
  simp only [transform, Job.on_bind, Job.on_ofExcept]
  cases t.place with
  | error e => rfl
  | ok place =>
    obtain ⟨s₁, -, hlookup⟩ := m.on_lookup (place.relative "tree") s
    simp only [mapError_ok, hlookup, m.on_count]
    cases m.seen s.files (place.relative "tree") with
    | hit found => exact on_advance_finished m t 4 (.ok found) _
    | miss =>
      refine (on_advance_missed m t place false _).trans ?_
      rw [Job.on_bind]
    | undecodable =>
      refine (on_advance_missed m t place true _).trans ?_
      rw [Job.on_bind]

end Alone

/-! ## Races -/

structure Caller where
  tree : Tree
  phase : Phase := .start

structure Race where
  callers : List Caller
  site : Site

def phaseAfter : Except WorkError Phase → Phase
  | .ok phase => phase
  | .error e => .finished (.error e)

namespace Race

def start (trees : List Tree) (s : Site) : Race := ⟨trees.map fun t => { tree := t }, s⟩

def act (m : Memo) (race : Race) (i : Nat) : Race :=
  match race.callers[i]? with
  | none => race
  | some c =>
    { callers := race.callers.set i
        { c with phase := phaseAfter ((m.action c.tree c.phase).on race.site).1 }
      site := ((m.action c.tree c.phase).on race.site).2 }

def run (m : Memo) : List Nat → Race → Race
  | [], race => race
  | i :: schedule, race => run m schedule (race.act m i)

def stores (m : Memo) (race : Race) (i : Nat) : Bool :=
  match race.callers[i]? with
  | none => true
  | some c => !c.phase.isStoring || ((m.action c.tree c.phase).on race.site).1.isOk

def smooth (m : Memo) : List Nat → Race → Bool
  | [], _ => true
  | i :: schedule, race => race.stores m i && smooth m schedule (race.act m i)

end Race

/-- What the calls of a race share. The transformation depends on the tree alone and leaves the
files as they are; trees of one place are equal; and an entry that is there from the beginning
can be read, and holds no other tree than the result. -/
structure Shared (m : Memo) (f : Tree → Except WorkError Tree) (trees : List Tree)
    (fs : FileSystem) : Prop where
  inner : ∀ t s, ((m.inner.transform t).on s).1 = f t ∧
    ((m.inner.transform t).on s).2.files = s.files
  same : ∀ t ∈ trees, ∀ t' ∈ trees, ∀ place, t.place = .ok place → t'.place = .ok place → t' = t
  fits : ∀ t ∈ trees, ∀ r, f t = .ok r → r.Fits
  found : ∀ t ∈ trees, ∀ place raw time, t.place = .ok place →
    fs.item? (slot fs.working m.dir place) = some (.file raw time) →
    fs.read (m.store.pathOf (place.relative "tree")) = .ok raw
  sound : ∀ t ∈ trees, ∀ place, t.place = .ok place →
    Sound (fun r => f t = .ok r) fs (slot fs.working m.dir place)

def expected (f : Tree → Except WorkError Tree) (t : Tree) : Except WorkError Tree :=
  match t.place with
  | .error e => .error (.place e)
  | .ok _ => f t

section Actions

variable {m : Memo} {f : Tree → Except WorkError Tree} {trees : List Tree} {fs fs' : FileSystem}
  {t r : Tree} {place : Place} {raw : ByteArray} {time : Nat} {s : Site}

def Stored (m : Memo) (f : Tree → Except WorkError Tree) (trees : List Tree) (working : Key) :
    FileSystem.Writes := fun k raw =>
  ∃ t ∈ trees, ∃ place r, t.place = .ok place ∧ f t = .ok r ∧ k = slot working m.dir place ∧
    raw = entry r

def Spoilt (fs : FileSystem) (k : Key) : Prop :=
  ∀ raw time payload, fs.item? k = some (.file raw time) →
    Artifact.decode (Bytes.unpack raw) ≠ .ok payload

def Told (m : Memo) (f : Tree → Except WorkError Tree) (initial now : FileSystem) (t : Tree) :
    Phase → Prop
  | .start => True
  | .missed place replace => t.place = .ok place ∧
      (replace = false → Spoilt initial (slot initial.working m.dir place))
  | .checking place r => t.place = .ok place ∧ f t = .ok r ∧
      Spoilt initial (slot initial.working m.dir place)
  | .making place r => t.place = .ok place ∧ f t = .ok r
  | .storing place r => t.place = .ok place ∧ f t = .ok r
  | .finished answer => answer = expected f t ∧
      ∀ place r, t.place = .ok place → answer = .ok r → m.seen now (place.relative "tree") = .hit r

theorem Shared.stored_slot (h : Shared m f trees fs) (ht : t ∈ trees) (hplace : t.place = .ok place)
    (hraw : Stored m f trees fs.working (slot fs.working m.dir place) raw) :
    ∃ r, f t = .ok r ∧ r.Fits ∧ raw = entry r := by
  obtain ⟨t', ht', place', r, hplace', hr, hslot, rfl⟩ := hraw
  have heq : place = place' :=
    Place.eq_of_key_within (Place.proper_of_ofName hplace) (Place.proper_of_ofName hplace')
      (by decide) hslot
  subst heq
  obtain rfl := h.same t ht t' ht' place hplace hplace'
  exact ⟨r, hr, h.fits t' ht r hr, rfl⟩

/-- No entry ever holds anything but the result for the tree of its place. -/
theorem Shared.sound_after (h : Shared m f trees fs) (he : fs.Evolves (Stored m f trees fs.working) fs')
    (ht : t ∈ trees) (hplace : t.place = .ok place) :
    Sound (fun r => f t = .ok r) fs' (slot fs.working m.dir place) :=
  (h.sound t ht place hplace).evolve he fun _ hraw => h.stored_slot ht hplace hraw

theorem Shared.slot_after (h : Shared m f trees fs) {now later : FileSystem}
    (he : now.Evolves (Stored m f trees fs.working) later) (ht : t ∈ trees)
    (hplace : t.place = .ok place)
    (hitem : now.item? (slot fs.working m.dir place) = some (.file raw time)) :
    ∃ raw' time', later.item? (slot fs.working m.dir place) = some (.file raw' time') ∧
      (raw' = raw ∨ ∃ r, f t = .ok r ∧ held? raw' = some r) := by
  rcases he.item (slot fs.working m.dir place) with hsame | ⟨hnone, -⟩ | ⟨-, raw', hraw, hset⟩
  · exact ⟨raw, time, hsame.trans hitem, .inl rfl⟩
  · simp [hitem] at hnone
  · obtain ⟨r, hr, hfits, rfl⟩ := h.stored_slot ht hplace hraw
    exact ⟨entry r, now.now, hset, .inr ⟨r, hr, held?_entry hfits⟩⟩

theorem Shared.seen_after (h : Shared m f trees fs) {now later : FileSystem}
    (hworking : now.working = fs.working)
    (he : now.Evolves (Stored m f trees fs.working) later) (ht : t ∈ trees)
    (hplace : t.place = .ok place) (hr : f t = .ok r)
    (hseen : m.seen now (place.relative "tree") = .hit r) :
    m.seen later (place.relative "tree") = .hit r := by
  obtain ⟨raw, time, hitem, hheld⟩ := exists_of_seen_hit hseen
  rw [hworking] at hitem
  obtain ⟨raw', time', hlater, hraw⟩ := h.slot_after he ht hplace hitem
  have hheld' : held? raw' = some r := by
    rcases hraw with rfl | ⟨r', hr', hheld'⟩
    · exact hheld
    · obtain rfl := Except.ok.inj (hr.symm.trans hr')
      exact hheld'
  rw [← hworking, ← he.working] at hlater
  exact seen_of_reaches ((reaches_of_seen_hit hseen).mono he) hlater hheld'

/-- A lookup that finds no good artifact tells that there was none before the race either. -/
theorem Shared.spoilt_of_miss (h : Shared m f trees fs) {now : FileSystem}
    (he : fs.Evolves (Stored m f trees fs.working) now) (ht : t ∈ trees)
    (hplace : t.place = .ok place) (hseen : m.seen now (place.relative "tree") = .miss) :
    Spoilt fs (slot fs.working m.dir place) := by
  intro raw time payload hitem hdecode
  obtain ⟨read, hread⟩ := FileSystem.read_ok (h.found t ht place raw time hplace hitem)
  have hreach := (FileSystem.reaches_of_stat_file hread).mono he
  obtain ⟨raw', time', hnow, hraw⟩ := h.slot_after he ht hplace hitem
  rw [← he.working] at hnow
  rcases hraw with rfl | ⟨r, -, hheld⟩
  · obtain ⟨e, herror⟩ := inspect_of_seen_miss hseen
    simp [inspect_of_reaches hreach hnow hdecode] at herror
  · simp [seen_of_reaches hreach hnow hheld] at hseen

theorem Told.evolve {initial now later : FileSystem} {phase : Phase}
    (h : Shared m f trees initial) (htold : Told m f initial now t phase)
    (hworking : now.working = initial.working)
    (he : now.Evolves (Stored m f trees initial.working) later) (ht : t ∈ trees) :
    Told m f initial later t phase := by
  cases phase with
  | finished answer =>
    refine ⟨htold.1, fun place r hplace hanswer => ?_⟩
    have hr : f t = .ok r := by
      have hexpected := htold.1
      rw [expected, hplace, hanswer] at hexpected
      exact hexpected.symm
    exact h.seen_after hworking he ht hplace hr (htold.2 place r hplace hanswer)
  | _ => exact htold

end Actions

/-! ## One action -/

section Step

variable {m : Memo} {f : Tree → Except WorkError Tree} {trees : List Tree} {initial : FileSystem}
  {t r : Tree} {place : Place} {s : Site}

/-- An action stores nothing but entries of results, and what is known of its call carries over
to the next phase. -/
def Carries (m : Memo) (f : Tree → Except WorkError Tree) (trees : List Tree)
    (initial : FileSystem) (t : Tree) (s : Site) (phase : Phase) : Prop :=
  s.files.Evolves (Stored m f trees initial.working) ((m.action t phase).on s).2.files ∧
    Told m f initial ((m.action t phase).on s).2.files t (phaseAfter ((m.action t phase).on s).1)

theorem told_finished {now : FileSystem} (hplace : t.place = .ok place) (hr : f t = .ok r)
    (hseen : m.seen now (place.relative "tree") = .hit r) :
    Told m f initial now t (.finished (.ok r)) := by
  refine ⟨by simp [expected, hplace, hr], fun place' r' hplace' hr' => ?_⟩
  obtain rfl := Except.ok.inj (hplace.symm.trans hplace')
  obtain rfl := Except.ok.inj hr'
  exact hseen

theorem Shared.carries_start (h : Shared m f trees initial)
    (he : initial.Evolves (Stored m f trees initial.working) s.files) (ht : t ∈ trees) :
    Carries m f trees initial t s .start := by
  rw [Carries]
  cases hplace : t.place with
  | error e =>
    rw [on_start_of_unplaced hplace]
    refine ⟨.refl _ _, by simp [expected, hplace], fun place r hplaced => ?_⟩
    simp [hplace] at hplaced
  | ok place =>
    obtain ⟨s₁, hfiles, hstart⟩ := on_start (m := m) hplace s
    rw [hstart, hfiles]
    refine ⟨.refl _ _, ?_⟩
    cases hseen : m.seen s.files (place.relative "tree") with
    | hit found =>
      obtain ⟨raw, time, hitem, hheld⟩ := exists_of_seen_hit hseen
      rw [he.working] at hitem
      exact told_finished hplace (h.sound_after he ht hplace raw time found hitem hheld) hseen
    | miss => exact ⟨hplace, fun _ => h.spoilt_of_miss he ht hplace hseen⟩
    | undecodable => exact ⟨hplace, by simp⟩

theorem Shared.carries_missed (h : Shared m f trees initial) {replace : Bool}
    (htold : Told m f initial s.files t (.missed place replace)) :
    Carries m f trees initial t s (.missed place replace) := by
  obtain ⟨hplace, hspoilt⟩ := htold
  obtain ⟨hanswer, hfiles⟩ := h.inner t s
  rw [Carries, on_missed, hanswer, hfiles]
  refine ⟨.refl _ _, ?_⟩
  cases hr : f t with
  | error e => exact ⟨by simp [expected, hplace, hr], by simp⟩
  | ok r =>
    cases replace with
    | true => exact ⟨hplace, hr⟩
    | false => exact ⟨hplace, hr, hspoilt rfl⟩

/-- A good artifact that has appeared is the entry of a call with the same tree. -/
theorem Shared.carries_checking (h : Shared m f trees initial)
    (he : initial.Evolves (Stored m f trees initial.working) s.files) (ht : t ∈ trees)
    (htold : Told m f initial s.files t (.checking place r)) :
    Carries m f trees initial t s (.checking place r) := by
  obtain ⟨hplace, hr, hspoilt⟩ := htold
  rw [Carries, on_checking]
  refine ⟨.refl _ _, ?_⟩
  cases hinspect : m.store.inspect s.files (place.relative "tree") with
  | error e => exact ⟨hplace, hr⟩
  | ok payload =>
    obtain ⟨raw, time, hstat, hdecode⟩ := stat_of_inspect hinspect
    have hitem := FileSystem.item?_of_stat_file hstat
    have hheld : held? raw = some r := by
      rw [he.working] at hitem
      rcases he.file_cases hitem with hbefore | ⟨hstored, -⟩
      · exact absurd hdecode (hspoilt raw time payload hbefore)
      · obtain ⟨r', hr', hfits, rfl⟩ := h.stored_slot ht hplace hstored
        obtain rfl := Except.ok.inj (hr.symm.trans hr')
        exact held?_entry hfits
    have hreach := FileSystem.reaches_of_stat_file hstat
    exact told_finished hplace hr (seen_of_reaches hreach hitem hheld)

theorem carries_making (htold : Told m f initial s.files t (.making place r))
    (hok : ((m.action t (.making place r)).on s).1.isOk = true) :
    Carries m f trees initial t s (.making place r) := by
  have hmade : s.files.Evolves (Stored m f trees initial.working)
      ((m.store.makeRoom (place.relative "tree")).on s).2.files :=
    m.store.within_makeRoom (place.relative "tree") s rfl
  rw [on_making] at hok
  rw [Carries, on_making]
  rcases hroom : (m.store.makeRoom (place.relative "tree")).on s with ⟨x, s₁⟩
  rw [hroom] at hok hmade
  cases x with
  | error e => cases hok
  | ok u => exact ⟨hmade, htold⟩

theorem Shared.carries_storing (h : Shared m f trees initial)
    (he : initial.Evolves (Stored m f trees initial.working) s.files) (ht : t ∈ trees)
    (htold : Told m f initial s.files t (.storing place r))
    (hok : ((m.action t (.storing place r)).on s).1.isOk = true) :
    Carries m f trees initial t s (.storing place r) := by
  obtain ⟨hplace, hr⟩ := htold
  rw [on_storing] at hok
  rw [Carries, on_storing]
  rcases hmove : (m.store.moveIn (place.relative "tree") r.toBinary).on s with ⟨x, s₁⟩
  rw [hmove] at hok
  cases x with
  | error e => cases hok
  | ok path =>
    obtain ⟨hset, hreach⟩ := Artifact.Store.on_moveIn_ok hmove
    have hstored := FileSystem.Evolves.of_setsFile hset
    have hitem : s₁.files.item? (slot s₁.files.working m.dir place) =
        some (.file (entry r) s.files.now) := by
      rw [hset.item, hset.working]
      exact if_pos rfl
    refine ⟨hstored.mono ?_, told_finished hplace hr ?_⟩
    · rintro k raw ⟨hk, hraw⟩
      rw [he.working] at hk
      exact ⟨t, ht, place, r, hplace, hr, hk, hraw⟩
    · exact seen_of_reaches (hreach.mono hstored) hitem (held?_entry (h.fits t ht r hr))

theorem Shared.carries {phase : Phase} (h : Shared m f trees initial)
    (he : initial.Evolves (Stored m f trees initial.working) s.files) (ht : t ∈ trees)
    (htold : Told m f initial s.files t phase)
    (hok : phase.isStoring = true → ((m.action t phase).on s).1.isOk = true) :
    Carries m f trees initial t s phase := by
  cases phase with
  | start => exact h.carries_start he ht
  | missed place replace => exact h.carries_missed htold
  | checking place r => exact h.carries_checking he ht htold
  | making place r => exact carries_making htold (hok rfl)
  | storing place r => exact h.carries_storing he ht htold (hok rfl)
  | finished answer => exact ⟨.refl _ _, htold⟩

end Step

/-! ## Whole races -/

section Race

variable {m : Memo} {f : Tree → Except WorkError Tree} {trees : List Tree} {s : Site}
  {race : Race} {i : Nat} {schedule : List Nat}

structure Running (m : Memo) (f : Tree → Except WorkError Tree) (trees : List Tree)
    (initial : FileSystem) (race : Race) : Prop where
  callers : race.callers.map (·.tree) = trees
  evolves : initial.Evolves (Stored m f trees initial.working) race.site.files
  told : ∀ c ∈ race.callers, Told m f initial race.site.files c.tree c.phase

theorem running_start (m : Memo) (f : Tree → Except WorkError Tree) (trees : List Tree) (s : Site) :
    Running m f trees s.files (Race.start trees s) := by
  refine ⟨by simp [Race.start, Function.comp_def], .refl _ _, fun c hc => ?_⟩
  obtain ⟨t, -, rfl⟩ := List.mem_map.1 hc
  trivial

theorem Running.act {initial : FileSystem} (h : Shared m f trees initial)
    (hrace : Running m f trees initial race) (hstores : race.stores m i = true) :
    Running m f trees initial (race.act m i) := by
  rw [Race.act]
  rw [Race.stores] at hstores
  cases hc : race.callers[i]? with
  | none => exact hrace
  | some c =>
    have hmem : c ∈ race.callers := List.mem_of_getElem? hc
    have ht : c.tree ∈ trees := hrace.callers ▸ List.mem_map_of_mem hmem
    have hok : c.phase.isStoring = true →
        ((m.action c.tree c.phase).on race.site).1.isOk = true := by
      intro hstoring
      simpa [hc, hstoring] using hstores
    obtain ⟨hevolves, htold⟩ := h.carries hrace.evolves ht (hrace.told c hmem) hok
    refine ⟨?_, hrace.evolves.trans hevolves, fun d hd => ?_⟩
    · rw [List.map_set, ← hrace.callers]
      refine List.ext_getElem? fun j => ?_
      rw [List.getElem?_set]
      by_cases hj : i = j
      · obtain ⟨hlt, hget⟩ := List.getElem?_eq_some_iff.1 hc
        subst hj
        simp [hlt, hget]
      · rw [if_neg hj]
    · rcases List.mem_or_eq_of_mem_set hd with hother | rfl
      · have htree : d.tree ∈ trees := hrace.callers ▸ List.mem_map_of_mem hother
        exact (hrace.told d hother).evolve h hrace.evolves.working hevolves htree
      · exact htold

theorem Running.run {initial : FileSystem} (h : Shared m f trees initial)
    (hrace : Running m f trees initial race) (hsmooth : Race.smooth m schedule race = true) :
    Running m f trees initial (Race.run m schedule race) := by
  induction schedule generalizing race with
  | nil => exact hrace
  | cons i schedule ih =>
    rw [Race.smooth, Bool.and_eq_true] at hsmooth
    exact ih (hrace.act h hsmooth.1) hsmooth.2

theorem rank_phaseAfter_action (m : Memo) (t : Tree) (phase : Phase) (s : Site) :
    (phaseAfter ((m.action t phase).on s).1).rank ≤ phase.rank - 1 := by
  cases phase with
  | start =>
    cases hplace : t.place with
    | error e =>
      rw [on_start_of_unplaced hplace]
      simp [phaseAfter, Phase.rank]
    | ok place =>
      obtain ⟨s₁, -, hstart⟩ := on_start (m := m) hplace s
      rw [hstart]
      cases m.seen s.files (place.relative "tree") <;> simp [phaseAfter, Phase.rank]
  | missed place replace =>
    rw [on_missed]
    cases ((m.inner.transform t).on s).1 with
    | error e => simp [Except.map, phaseAfter, Phase.rank]
    | ok r => cases replace <;> simp [Except.map, phaseAfter, Phase.rank]
  | checking place r =>
    rw [on_checking]
    cases m.store.inspect s.files (place.relative "tree") <;> simp [phaseAfter, Phase.rank]
  | making place r =>
    rw [on_making]
    cases ((m.store.makeRoom (place.relative "tree")).on s).1 <;>
      simp [Except.map, phaseAfter, Phase.rank]
  | storing place r =>
    rw [on_storing]
    cases ((m.store.moveIn (place.relative "tree") r.toBinary).on s).1 <;>
      simp [Except.map, phaseAfter, Phase.rank]
  | finished answer => simp [action, phaseAfter, Phase.rank]

theorem rank_act {j : Nat} {c' : Caller} (h : (race.act m j).callers[i]? = some c') :
    ∃ c, race.callers[i]? = some c ∧
      c'.phase.rank ≤ c.phase.rank - (if j = i then 1 else 0) := by
  rw [Race.act] at h
  cases hc : race.callers[j]? with
  | none =>
    rw [hc] at h
    have hne : j ≠ i := by
      rintro rfl
      simp [hc] at h
    exact ⟨c', h, by simp [hne]⟩
  | some c =>
    simp only [hc, List.getElem?_set] at h
    by_cases hj : j = i
    · subst hj
      obtain ⟨hlt, rfl⟩ : j < race.callers.length ∧ _ = c' := by simpa using h
      exact ⟨c, hc, by simpa using rank_phaseAfter_action m c.tree c.phase race.site⟩
    · rw [if_neg hj] at h
      exact ⟨c', h, by simp [hj]⟩

theorem rank_run {c' : Caller} (h : (Race.run m schedule race).callers[i]? = some c') :
    ∃ c, race.callers[i]? = some c ∧ c'.phase.rank ≤ c.phase.rank - schedule.count i := by
  induction schedule generalizing race with
  | nil => exact ⟨c', h, by simp⟩
  | cons j schedule ih =>
    obtain ⟨c₁, hc₁, hrank₁⟩ := ih h
    obtain ⟨c, hc, hrank⟩ := rank_act hc₁
    refine ⟨c, hc, ?_⟩
    rw [List.count_cons]
    simp only [beq_iff_eq]
    omega

theorem finished_of_count {c : Caller}
    (h : (Race.run m schedule (Race.start trees s)).callers[i]? = some c)
    (hcount : 5 ≤ schedule.count i) : ∃ answer, c.phase = .finished answer := by
  obtain ⟨c₀, hc₀, hrank⟩ := rank_run h
  have hstart : c₀.phase.rank = 5 := by
    obtain ⟨t, -, rfl⟩ := List.mem_map.1 (List.mem_of_getElem? hc₀)
    rfl
  cases hphase : c.phase with
  | finished answer => exact ⟨answer, rfl⟩
  | _ =>
    rw [hphase, hstart] at hrank
    simp only [Phase.rank] at hrank
    omega

/-- Calls that act one after the other transform their trees. Whatever the order in which they
act, every call that has ended gave the answer it is to give, and from then on its entry is good
and holds that tree. All that ever changes is that the whole entry of a result takes the place of
what was in its slot. -/
theorem race_benign (h : Shared m f trees s.files) (schedule : List Nat)
    (hsmooth : Race.smooth m schedule (Race.start trees s) = true) :
    let race := Race.run m schedule (Race.start trees s)
    (∀ t s, (m.advance t 5 .start).on s = (do
        let result ← m.transform t
        pure (Phase.finished (.ok result))).on s) ∧
      race.callers.map (·.tree) = trees ∧
      (∀ i c, race.callers[i]? = some c → 5 ≤ schedule.count i →
        ∃ answer, c.phase = .finished answer) ∧
      (∀ c ∈ race.callers, ∀ answer, c.phase = .finished answer →
        answer = expected f c.tree ∧
        ∀ place r, c.tree.place = .ok place → answer = .ok r →
          ∃ payload, m.store.inspect race.site.files (place.relative "tree") = .ok payload ∧
            Tree.ofBinary payload = .ok r) ∧
      (∀ k raw time, race.site.files.item? k = some (.file raw time) →
        s.files.item? k = some (.file raw time) ∨
        ∃ t ∈ trees, ∃ place r, t.place = .ok place ∧ k = slot s.files.working m.dir place ∧
          f t = .ok r ∧ raw = entry r ∧ held? raw = some r) ∧
      ∀ k raw time, s.files.item? k = some (.file raw time) →
        ∃ raw' time', race.site.files.item? k = some (.file raw' time') := by
  intro race
  have hrunning : Running m f trees s.files race :=
    (running_start m f trees s).run h hsmooth
  refine ⟨m.on_advance_start, hrunning.callers, fun i c hc hcount => finished_of_count hc hcount, ?_, ?_, ?_⟩
  · intro c hc answer hphase
    have htold := hrunning.told c hc
    rw [hphase] at htold
    refine ⟨htold.1, fun place r hplace hr => ?_⟩
    exact seen_eq_hit.1 (htold.2 place r hplace hr)
  · intro k raw time hitem
    rcases hrunning.evolves.file_cases hitem with hbefore | ⟨hstored, -⟩
    · exact .inl hbefore
    · obtain ⟨t, ht, place, r, hplace, hr, hk, hraw⟩ := hstored
      have hheld : held? raw = some r := hraw ▸ held?_entry (h.fits t ht r hr)
      exact .inr ⟨t, ht, place, r, hplace, hk, hr, hraw, hheld⟩
  · intro k raw time hitem
    rcases hrunning.evolves.item k with hsame | ⟨hnone, -⟩ | ⟨-, raw', -, hset⟩
    · exact ⟨raw, time, hsame.trans hitem⟩
    · simp [hitem] at hnone
    · exact ⟨raw', s.files.now, hset⟩

/-- Two calls look for the same tree and find a damaged entry. The first one stores its result
before the second one looks again; a third call has a tree without a place. -/
theorem race_benign_contended :
    let marked (t : Tree) : Tree := t.addError ⟨.warning, "odd", none, none⟩
    let tr : Train := { steps := [⟨"mark", fun t => .ok (marked t)⟩] }
    let m : Memo := ⟨tr.optimization, ⟨"cache"⟩, true⟩
    let trees : List Tree := [.ofName "a", .ofName "a", .ofName "a/b"]
    let cache : Entry := .directory [("a.tree", .file ⟨#[1, 2, 3]⟩ 0)] 0
    let s : Site := { files := ⟨.directory [("work", .directory [("cache", cache)] 0)] 0, ["work"], 5⟩ }
    ∃ race, Race.run m [0, 1, 2, 0, 1, 0, 0, 0, 1] (Race.start trees s) = race ∧
      race.callers.map (fun c => (c.tree, c.phase)) =
        [(.ofName "a", .finished (.ok (marked (.ofName "a")))),
          (.ofName "a", .finished (.ok (marked (.ofName "a")))),
          (.ofName "a/b", .finished (.error (.place (.separator "a/b" "a/b"))))] ∧
      ∃ payload, m.store.inspect race.site.files ((Place.mk ["a"]).relative "tree") = .ok payload ∧
        Tree.ofBinary payload = .ok (marked (.ofName "a")) := by
  intro marked tr m trees cache s
  have hplace : (Tree.ofName "a").place = .ok ⟨["a"]⟩ := by decide +kernel
  have hunplaced : (Tree.ofName "a/b").place = .error (.separator "a/b" "a/b") := by decide +kernel
  have htrees : ∀ t ∈ trees, t = .ofName "a" ∨ t = .ofName "a/b" := by decide +kernel
  have hplaced : ∀ t ∈ trees, ∀ place, t.place = .ok place → t = .ofName "a" ∧ place = ⟨["a"]⟩ := by
    intro t ht place h
    rcases htrees t ht with rfl | rfl
    · exact ⟨rfl, Except.ok.inj (h.symm.trans hplace)⟩
    · simp [hunplaced] at h
  have hslot : slot s.files.working m.dir ⟨["a"]⟩ = ["work", "cache", "a.tree"] := by decide +kernel
  have hdamaged : ∀ raw time, s.files.item? ["work", "cache", "a.tree"] = some (.file raw time) →
      raw = ⟨#[1, 2, 3]⟩ := by
    intro raw time h
    cases h
    rfl
  have hshared : Shared m (fun t => (tr.content t).mapError .structural) trees s.files := by
    refine ⟨Train.on_transform_of_plain rfl, ?_, ?_, ?_, ?_⟩
    · intro t ht t' ht' place h h'
      rw [(hplaced t ht place h).1, (hplaced t' ht' place h').1]
    · intro t ht r hr
      have hdiagnostic : (Diagnostic.mk .warning "odd" none none).Fits := ⟨by decide, by simp⟩
      obtain rfl : marked t = r := Except.ok.inj hr
      rcases htrees t ht with rfl | rfl <;>
        exact (Tree.fits_ofName (by decide)).addError hdiagnostic (by decide)
    · intro t ht place raw time h hitem
      obtain ⟨-, rfl⟩ := hplaced t ht place h
      rw [hslot] at hitem
      rw [hdamaged raw time hitem]
      decide +kernel
    · intro t ht place h raw time r hitem hheld
      obtain ⟨-, rfl⟩ := hplaced t ht place h
      rw [hslot] at hitem
      rw [hdamaged raw time hitem, show held? ⟨#[1, 2, 3]⟩ = none by decide +kernel] at hheld
      simp at hheld
  have hrace : (Race.run m [0, 1, 2, 0, 1, 0, 0, 0, 1] (Race.start trees s)).callers.map
        (fun c => (c.tree, c.phase)) =
        [(.ofName "a", .finished (.ok (marked (.ofName "a")))),
          (.ofName "a", .finished (.ok (marked (.ofName "a")))),
          (.ofName "a/b", .finished (.error (.place (.separator "a/b" "a/b"))))] ∧
      Race.smooth m [0, 1, 2, 0, 1, 0, 0, 0, 1] (Race.start trees s) = true := by
    decide +kernel
  obtain ⟨hcallers, hsmooth⟩ := hrace
  obtain ⟨-, -, -, hfinished, -⟩ := race_benign hshared [0, 1, 2, 0, 1, 0, 0, 0, 1] hsmooth
  -- from here on the race is not to be run again
  generalize Race.run m [0, 1, 2, 0, 1, 0, 0, 0, 1] (Race.start trees s) = race at *
  refine ⟨race, rfl, hcallers, ?_⟩
  have hfirst : (Tree.ofName "a", Phase.finished (.ok (marked (.ofName "a")))) ∈
      race.callers.map fun c => (c.tree, c.phase) := by
    rw [hcallers]
    exact List.mem_cons_self
  obtain ⟨c, hc, hcaller⟩ := List.mem_map.1 hfirst
  obtain ⟨htree, hphase⟩ := Prod.mk.inj hcaller
  obtain ⟨-, hentry⟩ := hfinished c hc _ hphase
  exact hentry ⟨["a"]⟩ _ (by rw [htree, hplace]) rfl

/-- A call for a tree without a place fails, though the transformation does not. And where the
path to the directory makes a detour through one that is missing, an entry from before the race
comes into sight only when another call has made it: the first call found nothing, and leaves the
useless entry that it finds then. -/
theorem race_not_benign :
    let m : Memo := ⟨({} : Train).optimization, ⟨"x/../cache"⟩, true⟩
    let useless : Entry := .file (Artifact.encode producer [255]).pack 0
    let cache : Entry := .directory [("a.tree", useless)] 0
    let s : Site := { files := ⟨.directory [("work", .directory [("cache", cache)] 0)] 0, ["work"], 5⟩ }
    (((m.inner.transform (.ofName "a/b")).on s).1 = .ok (.ofName "a/b") ∧
      (Race.run m [0] (Race.start [.ofName "a/b"] s)).callers.map (·.phase) =
        [.finished (.error (.place (.separator "a/b" "a/b")))]) ∧
    (Race.smooth m [0, 0, 1, 1, 1, 1, 0, 1] (Race.start [.ofName "a", .ofName "b"] s) = true ∧
      (Race.run m [0, 0, 1, 1, 1, 1, 0, 1] (Race.start [.ofName "a", .ofName "b"] s)).callers.map
        (·.phase) = [.finished (.ok (.ofName "a")), .finished (.ok (.ofName "b"))] ∧
      (m.seen (Race.run m [0, 0, 1, 1, 1, 1, 0, 1] (Race.start [.ofName "a", .ofName "b"] s)).site.files
        ((Place.mk ["a"]).relative "tree")).isHit = false) := by
  decide +kernel

end Race

end Memo

end Trainyard
