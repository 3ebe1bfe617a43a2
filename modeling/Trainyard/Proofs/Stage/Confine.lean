import Trainyard.Proofs.Stage.Account
import Trainyard.Proofs.Stage.Order
import Trainyard.Repository

/-!
# No name leads out of its directory

The paths of files are put together from names that anyone may choose: those of programs, those
in the trees, those of stations, and digests. None of them is a way up or a way elsewhere. All
files that the stages and the home write lie at a directory of theirs, extended by names that
each lead one step down.
-/

set_option autoImplicit false

namespace Trainyard

/-! ## Names that lead down -/

def Path.Beneath (working : Key) (dir : Path) (k : Key) : Prop :=
  ∃ names, names ≠ [] ∧ (∀ name ∈ names, Path.Plain name) ∧ k = dir.key working ++ names

theorem Place.beneath_within (working : Key) (dir : Path) {place : Place} (hp : place.Proper)
    {extension : String} (he : '/' ∉ extension.toList) :
    dir.Beneath working ((place.within dir extension).key working) := by
  refine ⟨_, ?_, fun c hc => plain_of_mem_componentsOf hp he hc, key_within working dir hp he⟩
  rw [← List.length_pos_iff, length_componentsOf, List.length_pos_iff]
  exact hp.nonempty

theorem Train.beneath_snapshotKey (working : Key) (dir : Path) {place : Place} (hp : place.Proper)
    (position : Nat) (station : String) :
    dir.Beneath working (snapshotKey working dir place position station) := by
  refine ⟨place.segments ++ [snapshotName position station], by simp, fun name hname => ?_, ?_⟩
  · rcases List.mem_append.1 hname with hsegment | hlast
    · exact (hp.stem name hsegment).plain
    · rw [List.mem_singleton.1 hlast]
      exact Train.plain_snapshotName position station
  · rw [snapshotKey_eq working dir hp, List.append_assoc]

def Digest.IsName (name : String) : Prop :=
  name.toList.length = 32 ∧
    ∀ c ∈ name.toList, ('0' ≤ c ∧ c ≤ '9') ∨ ('a' ≤ c ∧ c ≤ 'f')

theorem Digest.isName_toHex (d : Digest) : IsName d.toHex := by
  refine ⟨d.length_toList_toHex, fun c hc => ?_⟩
  rw [toHex, String.toList_ofList] at hc
  obtain ⟨n, hn, rfl⟩ := Text.Hex.exists_of_mem_encode hc
  have hdigits : ∀ n : Fin 16, ('0' ≤ Text.Hex.digit n.val ∧ Text.Hex.digit n.val ≤ '9') ∨
      ('a' ≤ Text.Hex.digit n.val ∧ Text.Hex.digit n.val ≤ 'f') := by decide
  exact hdigits ⟨n, hn⟩

/-! ## What the stages write -/

namespace Stage

variable {working : Key} {writes : FileSystem.Writes} {p : Program} {t : Tree}

namespace Optimize

variable {stage : Optimize}

theorem within_task (happly : ∀ t, Job.Within working writes
      (applyTo stage.train stage.layout.optimizedCacheDir p t))
    (houtput : ∀ place b, place.Proper → writes ((stage.output place).key working) b) :
    Job.Within working writes (stage.task p) :=
  obeys_task (Job.composes_evolves working writes) happly
    fun place _ hp => Tree.within_save (houtput place _ hp)

/-- A run writes what its tasks write. -/
theorem within_run (htask : ∀ p, Job.Within working writes (stage.task p)) (ps : List Program) :
    Job.Within working writes (stage.run ps) :=
  obeys_run (Job.composes_evolves working writes)
    (fun s _ => (stage.evolves_on_prepare ps s).mono fun _ _ h => h.elim) htask

end Optimize

namespace Binarize

variable {stage : Binarize}

theorem within_task (happly : ∀ t, Job.Within working writes
      (applyTo stage.optimization stage.layout.binarizedCacheDir p t))
    (houtput : ∀ (place : Place) extension b, place.Proper → extension = "json" ∨ extension = "rs" →
      writes ((place.within stage.dir extension).key working) b) :
    Job.Within working writes (stage.task p) :=
  obeys_task (Job.composes_evolves working writes) happly
    (fun place _ hp => Tree.within_save (houtput place "json" _ hp (.inl rfl)))
    fun place f _ hp => Job.within_write f (houtput place "rs" _ hp (.inr rfl))

theorem within_run (htask : ∀ p, Job.Within working writes (stage.task p)) (ps : List Program) :
    Job.Within working writes (stage.run ps) :=
  obeys_run (Job.composes_evolves working writes)
    (fun s _ => (stage.evolves_on_prepare ps s).mono fun _ _ h => h.elim) htask

end Binarize

/-! ## Confinement -/

def Shelved (working : Key) (cache : Path) (k : Key) : Prop :=
  ∃ name, Digest.IsName name ∧ (cache.child name).Beneath working k

theorem shelved_slot (working : Key) (cache : Path) (d : Digest) {place : Place}
    (hplace : t.place = .ok place) :
    Shelved working cache (Memo.slot working (cache.child d.toHex) place) :=
  ⟨d.toHex, d.isName_toHex,
    Place.beneath_within working _ (Place.proper_of_ofName hplace) (by decide)⟩

def Optimize.Owned (l : Layout) (working k : Key) : Prop :=
  l.stepsDir.Beneath working k ∨ l.optimizeDir.Beneath working k ∨
    Shelved working l.optimizedCacheDir k

def Binarize.Owned (l : Layout) (working k : Key) : Prop :=
  l.binarizeDir.Beneath working k ∨ Shelved working l.binarizedCacheDir k

theorem Optimize.within_owned (steps : List Step) (c : Config.Optimize) (l : Layout)
    (ps : List Program) (working : Key) :
    Job.Within working (fun k _ => Owned l working k) ((ofConfig steps c l).run ps) := by
  apply within_run
  intro p
  apply within_task
  · intro t
    apply within_applyTo
    · intro dir hdir place position station b hp
      have htrack : (if c.trackSteps then some l.stepsDir else none) = some dir := hdir
      split at htrack
      · cases htrack
        exact .inl (Train.beneath_snapshotKey working l.stepsDir hp position station)
      · cases htrack
    · intro d _ place s r s' hplace _
      exact .inr (.inr (shelved_slot working l.optimizedCacheDir d hplace))
  · intro place b hp
    exact .inr (.inl (Place.beneath_within working l.optimizeDir hp (by decide)))

theorem Binarize.within_owned (stage : Binarize) (ps : List Program) (working : Key) :
    Job.Within working (fun k _ => Owned stage.layout working k) (stage.run ps) := by
  apply within_run
  intro p
  apply within_task
  · intro t
    apply within_applyTo
    · intro dir hdir place position station b hp
      cases hdir
      exact .inl (Train.beneath_snapshotKey working stage.dir hp position station)
    · intro d _ place s r s' hplace _
      exact .inr (shelved_slot working stage.layout.binarizedCacheDir d hplace)
  · intro place extension b hp hextension
    refine .inl (Place.beneath_within working stage.dir hp ?_)
    rcases hextension with rfl | rfl <;> decide

end Stage

theorem Home.within_save (home : Home) (name source : String) (working : Key) :
    Job.Within working (fun k _ => home.dir.Beneath working k) (home.save name source) := by
  have hpath : ∀ s path s', (Job.ofExcept FetchError.unplaceable (home.pathOf name)).on s =
      (.ok path, s') → home.dir.Beneath working (path.key working) := by
    intro s path s' h
    obtain ⟨place, hplace, hpath⟩ := FileSystem.bind_eq_ok.1 (Job.on_ofExcept_ok h).1
    cases hpath
    exact Place.beneath_within working home.dir (Place.proper_of_ofName hplace) (by decide)
  have hR := Job.composes_evolves working fun k _ => home.dir.Beneath working k
  refine Job.obeys_bind_of hR _ (Job.obeys_ofExcept hR _ _) hpath fun path hbeneath => ?_
  refine Job.obeys_bind hR (Job.within_writeText _ hbeneath) fun _ => ?_
  exact Job.obeys_bind hR (Job.obeys_tell hR _) fun _ => Job.obeys_pure hR _

/-- Whatever programs, trees and steps are called and whatever is in the trees, no file is written
out of place. The optimize stage writes beneath its two directories below the target and beneath
the digests in its cache, the binarize stage beneath its one directory and its digests, and a
home beneath itself. -/
theorem files_written_beneath_directories :
    (∀ (steps : List Step) (c : Config.Optimize) (l : Layout) (ps : List Program) (s : Site),
      s.files.Evolves (fun k _ => Stage.Optimize.Owned l s.files.working k)
        (((Stage.Optimize.ofConfig steps c l).run ps).on s).2.files) ∧
    (∀ (stage : Stage.Binarize) (ps : List Program) (s : Site),
      s.files.Evolves (fun k _ => Stage.Binarize.Owned stage.layout s.files.working k)
        ((stage.run ps).on s).2.files) ∧
    ∀ (home : Home) (name source : String) (s : Site),
      s.files.Evolves (fun k _ => home.dir.Beneath s.files.working k)
        ((home.save name source).on s).2.files :=
  ⟨fun steps c l ps s => Stage.Optimize.within_owned steps c l ps s.files.working s rfl,
    fun stage ps s => stage.within_owned ps s.files.working s rfl,
    fun home name source s => home.within_save name source s.files.working s rfl⟩

example : Train.snapshotName 1 "../../up" = "001-------up.json" ∧
    Place.ofName ".." = .error (.empty "..") ∧
    Place.ofName "a./up" = .error (.separator "a./up" "/up") := by decide

end Trainyard
