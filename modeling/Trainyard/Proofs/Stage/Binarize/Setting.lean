import Trainyard.Proofs.Avoid
import Trainyard.Proofs.Stage.Effect

/-!
# Where the binarize stage writes

Trees, snapshots and code go below one directory and entries of memos below another. Only code
has the extension it has, so the code of a program is touched by the work on that program alone.
A directory stands where code should go only if a path that was given passes there.
-/

set_option autoImplicit false

namespace Trainyard

namespace Layout

variable (l : Layout) (working : Key)

theorem key_binarizeDir : l.binarizeDir.key working = l.target.key working ++ ["binarize"] := by
  have hname : Path.Plain "binarize" := ⟨by decide, by decide, by decide, by decide⟩
  exact Path.key_child hname _ _

theorem key_binarizedCacheDir :
    l.binarizedCacheDir.key working = l.cache.key working ++ ["binarized"] := by
  have hname : Path.Plain "binarized" := ⟨by decide, by decide, by decide, by decide⟩
  exact Path.key_child hname _ _

end Layout

namespace Stage.Binarize

structure Setting where
  train : Train
  config : Config.Binarize
  layout : Layout
  working : Key
  meaning : Digest → Place → Tree
  enabled : config.enabled = true
  target_apart : ¬ layout.target.key working <+: layout.cache.key working
  cache_apart : ¬ layout.cache.key working <+: layout.target.key working
  fits : ∀ d place r, train.content (meaning d place) = .ok r → r.Fits

namespace Setting

variable (S : Setting)

def stage : Binarize := ⟨S.train, S.config, S.layout⟩

def bench : Bench :=
  ⟨S.train.withSnapshots S.stage.dir, S.layout.binarizedCacheDir, S.working, S.meaning, S.fits⟩

def dirKey : Key := S.stage.dir.key S.working

def cacheKey : Key := S.layout.binarizedCacheDir.key S.working

def codeKey (place : Place) : Key := (S.stage.codeOutput place).key S.working

variable {S} {place other : Place} {d : Digest} {k : Key} {raw : ByteArray}

theorem not_below_both (hdir : S.dirKey <+: k) (hcache : S.cacheKey <+: k) : False := by
  have htarget : S.layout.target.key S.working <+: k := by
    rw [dirKey, stage, dir, Layout.key_binarizeDir] at hdir
    exact (List.prefix_append _ _).trans hdir
  have hcache : S.layout.cache.key S.working <+: k := by
    rw [cacheKey, Layout.key_binarizedCacheDir] at hcache
    exact (List.prefix_append _ _).trans hcache
  rcases List.prefix_or_prefix_of_prefix htarget hcache with h | h
  · exact S.target_apart h
  · exact S.cache_apart h

/-! ## Code -/

theorem exists_codeKey (hp : place.Proper) :
    ∃ front last, S.codeKey place = S.dirKey ++ (front ++ [last ++ ".rs"]) := by
  have hslash : '/' ∉ "rs".toList := by decide
  obtain ⟨front, last, hsegments, -, -, -⟩ := Place.exists_file hp hslash
  refine ⟨front, last, ?_⟩
  rw [codeKey, codeOutput, Place.key_within _ _ hp hslash, hsegments, Place.componentsOf_append]
  rfl

theorem dirKey_below_codeKey (hp : place.Proper) : S.dirKey <+: S.codeKey place := by
  obtain ⟨front, last, hkey⟩ := exists_codeKey (S := S) hp
  rw [hkey]
  exact List.prefix_append _ _

theorem codeKey_injective (hp : place.Proper) (ho : other.Proper)
    (h : S.codeKey place = S.codeKey other) : place = other :=
  Place.eq_of_key_within hp ho (by decide) h

/-! ## Trees, snapshots and entries -/

variable (S) in
def Background : FileSystem.Writes := fun k raw =>
  (∃ front stem, k = S.dirKey ++ (front ++ [stem ++ ".json"])) ∨ S.bench.Stores k raw

theorem background_below (h : S.Background k raw) : S.dirKey <+: k ∨ S.cacheKey <+: k := by
  rcases h with ⟨front, stem, hkey⟩ | h
  · exact .inl (hkey ▸ List.prefix_append _ _)
  · exact .inr h.below

theorem not_background_codeKey (hp : place.Proper) : ¬ S.Background (S.codeKey place) raw := by
  obtain ⟨front, last, hkey⟩ := exists_codeKey (S := S) hp
  rintro (⟨front', stem, h⟩ | h)
  · rw [hkey, List.append_cancel_left_eq] at h
    have hlast : last ++ ".rs" = stem ++ ".json" := by simpa using (List.append_inj' h rfl).2
    have hletter := congrArg (fun name : String => name.toList.getLast?) hlast
    simp at hletter
  · exact not_below_both (dirKey_below_codeKey hp) h.below

theorem background_slot (hp : place.Proper) (h : S.Background (S.bench.slot d place) raw) :
    S.bench.Stores (S.bench.slot d place) raw := by
  rcases h with ⟨front, stem, hkey⟩ | h
  · have hdir : S.dirKey <+: S.bench.slot d place := hkey ▸ List.prefix_append _ _
    exact (not_below_both hdir (S.bench.cache_below_slot hp)).elim
  · exact h

theorem background_treeOutput (hp : place.Proper) :
    S.Background ((S.stage.treeOutput place).key S.working) raw := by
  have hslash : '/' ∉ "json".toList := by decide
  obtain ⟨front, last, hsegments, -, -, -⟩ := Place.exists_file hp hslash
  refine .inl ⟨front, last, ?_⟩
  rw [treeOutput, Place.key_within _ _ hp hslash, hsegments, Place.componentsOf_append]
  rfl

theorem background_snapshot (hp : place.Proper) (position : Nat) (station : String) :
    S.Background (Train.snapshotKey S.working S.stage.dir place position station) raw := by
  refine .inl ⟨place.segments, Train.snapshotStem position station, ?_⟩
  rw [Train.snapshotKey_eq S.working _ hp, Train.snapshotName_eq, List.append_assoc]
  rfl

/-! ## Directories -/

variable (S) in
structure Clear (place : Place) : Prop where
  dir : S.codeKey place ∉ S.stage.dir.way S.working
  cache : S.codeKey place ∉ S.layout.binarizedCacheDir.way S.working

theorem Clear.off_dir (h : S.Clear place) (hp : place.Proper) :
    S.stage.dir.Off S.working (S.codeKey place) := by
  refine ⟨h.dir, fun stems hstems hkey => ?_⟩
  obtain ⟨front, last, hcode⟩ := exists_codeKey (S := S) hp
  rw [hcode, dirKey, List.append_cancel_left_eq] at hkey
  -- the name of the code has a dot in it
  have hstem := hstems (last ++ ".rs") (by simp [← hkey])
  exact hstem.dot (by simp)

theorem Clear.off_cache (h : S.Clear place) (hp : place.Proper) :
    S.layout.binarizedCacheDir.Off S.working (S.codeKey place) := by
  refine ⟨h.cache, fun stems _ hkey => ?_⟩
  have hcache : S.cacheKey <+: S.codeKey place := hkey ▸ List.prefix_append _ _
  exact not_below_both (dirKey_below_codeKey hp) hcache

theorem Clear.avoids_applyTo (h : S.Clear place) (hp : place.Proper) (p : Program) (t : Tree) :
    Job.Avoids S.working (S.codeKey place)
      (applyTo S.stage.optimization S.layout.binarizedCacheDir p t) := by
  have hstations (position : Nat) (stations : List Station) (t : Tree) :
      Job.Avoids S.working (S.codeKey place)
        (Train.run (some S.stage.dir) position stations t) := by
    refine Train.avoids_run (fun dir hdir => ?_) position stations t
    cases hdir
    exact h.off_dir hp
  exact obeys_applyTo (Job.composes_bare _ _) hstations fun d _ =>
    Memo.avoids_transform ((h.off_cache hp).child d.stem_toHex) (hstations _ _ t)

theorem Clear.avoids_prepare (h : S.Clear place) (ps : List Program) :
    Job.Avoids S.working (S.codeKey place) (S.stage.prepare ps) := by
  have hR := Job.composes_bare S.working (S.codeKey place)
  refine Job.obeys_bind hR (Job.avoids_makeDirectories _ h.dir) fun _ => ?_
  split
  · exact Job.avoids_makeDirectories _ h.cache
  · exact Job.obeys_pure hR _

/-- No pass makes a directory where code goes. -/
theorem Clear.avoids_pass (h : S.Clear place) (hp : place.Proper) (ps : List Program) :
    Job.Avoids S.working (S.codeKey place) (S.stage.pass ps) := by
  have hR := Job.composes_bare S.working (S.codeKey place)
  refine obeys_pass hR (h.avoids_prepare ps) fun p => obeys_task hR (h.avoids_applyTo hp p)
    (fun other r ho => ?_) fun other f b _ => Job.avoids_write f _ b
  have hslash : '/' ∉ "json".toList := by decide
  obtain ⟨front, last, -, hfront, hname, hwithin⟩ := Place.exists_file ho hslash
  rw [treeOutput, hwithin]
  exact Tree.avoids_save (h.off_dir hp) r hfront hname

end Setting

end Stage.Binarize

end Trainyard
