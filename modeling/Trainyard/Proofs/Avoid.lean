import Trainyard.Proofs.FileSystem.Opens
import Trainyard.Proofs.Memo
import Trainyard.Proofs.Parent

/-!
# Keys where no directory is made

Directories are made on the way to the files that go into them. The files of the program are
put below a base by names, and all of these but the last have no dot in them. So a key that is
off the way to the base and is not spelled by such names stays free of directories, whatever is
saved, remembered or kept in snapshots below the base.
-/

set_option autoImplicit false

namespace Trainyard

/-! ## Ways -/

namespace Path

variable {working : Key} {p dir base : Path} {k : Key} {name : String}

theorem mem_way_of_start (habsolute : p.isAbsolute = dir.isAbsolute)
    (hnames : dir.components.filter (· ≠ ".") <+: p.components.filter (· ≠ "."))
    (h : k ∈ dir.way working) : k ∈ p.way working := by
  obtain ⟨rest, hrest⟩ := hnames
  have horigin : dir.origin working = p.origin working := by rw [origin, origin, habsolute]
  rw [way, horigin, List.mem_cons, ← FileSystem.wayFrom_filter] at h
  rw [way, List.mem_cons, ← FileSystem.wayFrom_filter, ← hrest, FileSystem.wayFrom_append]
  exact h.imp_right fun h => List.mem_append_left _ h

theorem mem_way_of_parent? (hparent : p.parent? = some dir) (h : k ∈ dir.way working) :
    k ∈ p.way working := by
  have hheads := heads_of_parent? hparent
  refine mem_way_of_start hheads.absolute.symm ?_ h
  rw [hheads.names]
  exact List.dropLast_prefix _

theorem mem_way_child (hname : Plain name) (h : k ∈ (p.child name).way working) :
    k ∈ p.way working ∨ k = p.key working ++ [name] := by
  have horigin : (p.child name).origin working = p.origin working := by
    rw [origin, origin, isAbsolute_child hname]
  rw [way, horigin, components_child hname, FileSystem.wayFrom_append, List.mem_cons,
    List.mem_append] at h
  rcases h with h | h | h
  · exact .inl (h ▸ List.mem_cons_self)
  · exact .inl (List.mem_cons_of_mem _ h)
  · rw [FileSystem.wayFrom, if_neg hname.dot, if_neg hname.dots, FileSystem.wayFrom,
      List.mem_singleton, ← FileSystem.trail_eq] at h
    exact .inr h

structure Off (working : Key) (base : Path) (k : Key) : Prop where
  way : k ∉ base.way working
  below : ∀ stems, (∀ n ∈ stems, Stem n) → k ≠ base.key working ++ stems

theorem Off.child (h : Off working base k) (hname : Stem name) :
    Off working (base.child name) k := by
  constructor
  · intro hway
    rcases mem_way_child hname.plain hway with hway | hkey
    · exact h.way hway
    · exact h.below [name] (by simpa using hname) hkey
  · intro stems hstems hkey
    rw [key_child hname.plain, List.append_assoc] at hkey
    exact h.below (name :: stems) (List.forall_mem_cons.2 ⟨hname, hstems⟩) hkey

theorem Off.descend (h : Off working base k) {names : List String}
    (hnames : ∀ n ∈ names, Stem n) : Off working (base.descend names) k := by
  induction names generalizing base with
  | nil => exact h
  | cons name names ih =>
    rw [List.forall_mem_cons] at hnames
    exact ih (h.child hnames.1) hnames.2

theorem Off.parent (h : Off working base k) {front : List String} (hfront : ∀ n ∈ front, Stem n)
    (hname : Plain name) (hparent : (base.descend (front ++ [name])).parent? = some dir) :
    k ∉ dir.way working := by
  rw [descend_append] at hparent
  obtain ⟨dir', hdir, hheads, hnames⟩ := heads_child hname (base.descend front)
  obtain rfl : dir' = dir := Option.some.inj (hdir.symm.trans hparent)
  intro hway
  refine (h.descend hfront).way (mem_way_of_start ?_ ?_ hway)
  · rw [hheads.absolute, isAbsolute_child hname]
  · exact hnames ▸ List.prefix_rfl

end Path

/-! ## Jobs that make no directory at a key -/

namespace FileSystem

structure Bare (working k : Key) (fs : FileSystem) : Prop where
  working : fs.working = working
  free : fs.item? k ≠ some .directory

variable {working k k' : Key} {fs fs' : FileSystem} {b : ByteArray}

theorem Bare.setsFile (h : Bare working k fs) (hset : SetsFile fs fs' k' b) :
    Bare working k fs' := by
  refine ⟨hset.working.trans h.working, ?_⟩
  rw [hset.item]
  split
  · simp
  · exact h.free

theorem Bare.makeDirectories (h : Bare working k fs) {dir : Path} (hk : k ∉ dir.way working) :
    Bare working k (fs.makeDirectories dir).2 := by
  have hopens := opens_makeDirectories dir fs
  refine ⟨hopens.working.trans h.working, fun hmade => ?_⟩
  rcases hopens.marks k with hsame | ⟨-, hdir | ⟨-, hway⟩⟩
  · exact h.free (item?_congr hsame ▸ hmade)
  · exact h.free hdir
  · exact hk (h.working ▸ hway)

end FileSystem

namespace Job

variable {ε α : Type} {working k : Key}

def Avoids (working k : Key) (job : Job ε α) : Prop :=
  ∀ s : Site, s.files.Bare working k → (job.on s).2.files.Bare working k

theorem composes_bare (working k : Key) :
    Composes fun fs fs' => fs.Bare working k → fs'.Bare working k :=
  ⟨fun _ => id, fun h h' => h' ∘ h⟩

theorem avoids_makeDirectories (f : OsError → ε) {dir : Path} (hk : k ∉ dir.way working) :
    Avoids working k (makeDirectories f dir) := by
  intro s hs
  rw [on_makeDirectories]
  exact hs.makeDirectories hk

theorem avoids_write (f : OsError → ε) (p : Path) (b : ByteArray) :
    Avoids working k (change f (·.write p b)) :=
  obeys_change (composes_bare working k) f fun _ _ h hs => hs.setsFile (FileSystem.write_ok h).1

theorem avoids_replace (f : OsError → ε) (p : Path) (b : ByteArray) :
    Avoids working k (change f (·.replace p b)) :=
  obeys_change (composes_bare working k) f fun _ _ h hs => hs.setsFile (FileSystem.replace_ok h).1

theorem avoids_disturb (f : OsError → ε) (dir : Path) :
    Avoids working k (change f (·.disturb dir)) := by
  refine obeys_change (composes_bare working k) f fun fs fs' h hs => ⟨?_, ?_⟩
  · exact (FileSystem.evolves_of_disturb (fun _ _ => False) h).working.trans hs.working
  · rw [FileSystem.item?_of_disturb h]
    exact hs.free

theorem avoids_writeText (f : Path → OsError → ε) {p : Path} (text : String)
    (hk : ∀ dir, p.parent? = some dir → k ∉ dir.way working) :
    Avoids working k (writeText f p text) := by
  refine obeys_bind (composes_bare working k) ?_ fun _ => avoids_write _ p _
  rw [makeParent]
  split
  next dir hdir => exact avoids_makeDirectories _ (hk dir hdir)
  next => exact obeys_pure (composes_bare working k) ()

end Job

section Avoids

variable {working k : Key} {base : Path} {front : List String} {name : String}

theorem Tree.avoids_save (h : base.Off working k) (t : Tree) (hfront : ∀ n ∈ front, Path.Stem n)
    (hname : Path.Plain name) : Job.Avoids working k (t.save (base.descend (front ++ [name]))) :=
  Job.avoids_writeText _ _ fun _ => h.parent hfront hname

namespace Artifact.Store

variable {store : Store} {relative : Path}

theorem avoids_write (h : base.Off working k) (payload : Bytes)
    (hfront : ∀ n ∈ front, Path.Stem n) (hname : Path.Plain name)
    (hpath : store.pathOf relative = base.descend (front ++ [name])) :
    Job.Avoids working k (store.write relative payload) := by
  obtain ⟨dir, hdir, -, -⟩ := Path.heads_child hname (base.descend front)
  rw [← Path.descend_append] at hdir
  have hk := h.parent hfront hname hdir
  have hR := Job.composes_bare working k
  simp only [write, hpath, hdir, Option.getD_some]
  refine Job.obeys_bind hR (Job.avoids_makeDirectories _ hk) fun _ => ?_
  refine Job.obeys_bind hR (Job.avoids_disturb _ dir) fun _ => ?_
  exact Job.obeys_bind hR (Job.avoids_replace _ _ _) fun _ => Job.obeys_pure hR _

theorem avoids_writeOnce (h : base.Off working k) (payload : Bytes)
    (hfront : ∀ n ∈ front, Path.Stem n) (hname : Path.Plain name)
    (hpath : store.pathOf relative = base.descend (front ++ [name])) :
    Job.Avoids working k (store.writeOnce relative payload) := by
  have hR := Job.composes_bare working k
  refine Job.obeys_bind hR (Job.obeys_files hR) fun fs => ?_
  split
  · exact Job.obeys_pure hR false
  · exact Job.obeys_bind hR (avoids_write h payload hfront hname hpath) fun _ =>
      Job.obeys_pure hR true

end Artifact.Store

theorem Train.avoids_run {snapshots : Option Path} (h : ∀ dir ∈ snapshots, dir.Off working k)
    (position : Nat) (stations : List Station) (t : Tree) :
    Job.Avoids working k (run snapshots position stations t) := by
  refine obeys_run (Job.composes_bare working k) (fun dir hdir place position station t hp => ?_)
    position stations t
  rw [Place.within_eq_descend hp (by simp), show Place.ending "" = "" from rfl,
    Place.componentsOf_empty, ← Path.descend_append]
  exact Tree.avoids_save (h dir hdir) t hp.stem (plain_snapshotName position station)

theorem Memo.avoids_transform {m : Memo} (h : m.dir.Off working k) {t : Tree}
    (hinner : Job.Avoids working k (m.inner.transform t)) :
    Job.Avoids working k (m.transform t) := by
  refine obeys_transform (Job.composes_bare working k) hinner fun place _ r _ hplace _ => ?_
  have hslash : '/' ∉ "tree".toList := by decide
  obtain ⟨front, last, -, hfront, hname, hwithin⟩ :=
    Place.exists_file (Place.proper_of_ofName hplace) hslash
  exact ⟨Artifact.Store.avoids_write h _ hfront hname (hwithin m.dir),
    Artifact.Store.avoids_writeOnce h _ hfront hname (hwithin m.dir)⟩

end Avoids

end Trainyard
