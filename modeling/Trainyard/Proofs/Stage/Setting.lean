import Trainyard.Proofs.Stage.Bench
import Trainyard.Stage.Optimize

/-!
# Where the optimize stage writes

The stage writes outputs and snapshots below the target directory and entries of its
memos below the cache directory. With the two directories apart, an output is touched
only by the work on its own program, and an entry only by a result for its own place
and digest.
-/

set_option autoImplicit false

namespace Trainyard

/-! ## The directories of a layout -/

namespace Layout

variable (l : Layout) (working : Key)

theorem key_stepsDir : l.stepsDir.key working = l.target.key working ++ ["02-steps"] :=
  Path.key_join working l.target
    (Path.descends_name (by decide) (by decide) (by decide) (by decide))

theorem key_optimizeDir : l.optimizeDir.key working = l.target.key working ++ ["03-optimize"] :=
  Path.key_join working l.target
    (Path.descends_name (by decide) (by decide) (by decide) (by decide))

theorem key_optimizedCacheDir :
    l.optimizedCacheDir.key working = l.cache.key working ++ ["optimized"] :=
  Path.key_join working l.cache
    (Path.descends_name (by decide) (by decide) (by decide) (by decide))

end Layout

namespace Stage.Optimize

/-- What the runs of one history share: the train and where it works, and the tree that each
digest stands for at each place. -/
structure Setting where
  train : Train
  config : Config.Optimize
  layout : Layout
  working : Key
  meaning : Digest → Place → Tree
  snapshots : train.snapshots = none ∨ train.snapshots = some layout.stepsDir
  target_apart : ¬ layout.target.key working <+: layout.cache.key working
  cache_apart : ¬ layout.cache.key working <+: layout.target.key working
  fits : ∀ d place r, train.content (meaning d place) = .ok r → r.Fits

namespace Setting

variable (S : Setting)

def stage : Optimize := ⟨S.train.optimization, S.config, S.layout⟩

def targetKey : Key := S.layout.target.key S.working

def cacheKey : Key := S.layout.cache.key S.working

def outputKey (place : Place) : Key := (S.stage.output place).key S.working

def bench : Bench := ⟨S.train, S.layout.optimizedCacheDir, S.working, S.meaning, S.fits⟩

def slot (d : Digest) (place : Place) : Key :=
  Memo.slot S.working (S.layout.optimizedCacheDir.child d.toHex) place

variable {S} {place other : Place} {d e : Digest} {k : Key} {raw : ByteArray}

theorem outputKey_eq (hp : place.Proper) : S.outputKey place =
    S.targetKey ++ "03-optimize" :: Place.componentsOf (Place.ending "json") place.segments := by
  rw [outputKey, output, Place.key_within _ _ hp (by decide)]
  show S.layout.optimizeDir.key S.working ++ _ = _
  rw [Layout.key_optimizeDir, List.append_assoc]
  rfl

theorem outputKey_injective (hp : place.Proper) (ho : other.Proper)
    (h : S.outputKey place = S.outputKey other) : place = other :=
  Place.eq_of_key_within hp ho (by decide) h

theorem not_below_both (ht : S.targetKey <+: k) (hc : S.cacheKey <+: k) : False := by
  rcases List.prefix_or_prefix_of_prefix ht hc with h | h
  · exact S.target_apart h
  · exact S.cache_apart h

variable (S) in
def Background : FileSystem.Writes := fun k raw =>
  S.layout.stepsDir.key S.working <+: k ∨
    ∃ d place r, place.Proper ∧ S.train.content (S.meaning d place) = .ok r ∧
      k = S.slot d place ∧ raw = Memo.entry r

theorem targetKey_prefix_outputKey (hp : place.Proper) : S.targetKey <+: S.outputKey place := by
  rw [outputKey_eq hp]
  exact List.prefix_append _ _

theorem cacheKey_prefix_slot (hp : place.Proper) : S.cacheKey <+: S.slot d place := by
  have hcache : S.layout.optimizedCacheDir.key S.working <+: S.slot d place :=
    S.bench.cache_below_slot hp
  rw [Layout.key_optimizedCacheDir] at hcache
  exact (List.prefix_append _ _).trans hcache

theorem targetKey_prefix_of_stepsDir (h : S.layout.stepsDir.key S.working <+: k) :
    S.targetKey <+: k := by
  rw [Layout.key_stepsDir] at h
  exact (List.prefix_append _ _).trans h

theorem background_below (h : S.Background k raw) : S.targetKey <+: k ∨ S.cacheKey <+: k := by
  rcases h with h | ⟨d, place, r, hp, -, hk, -⟩
  · exact .inl (targetKey_prefix_of_stepsDir h)
  · exact .inr (hk ▸ cacheKey_prefix_slot hp)

theorem not_background_outputKey (hp : place.Proper) : ¬ S.Background (S.outputKey place) raw := by
  rintro (h | ⟨d, other, r, ho, -, hk, -⟩)
  · rw [outputKey_eq hp, Layout.key_stepsDir] at h
    have hname := (List.prefix_append_right_inj S.targetKey).1 h
    rw [List.cons_prefix_cons] at hname
    exact absurd hname.1 (by decide)
  · have hcache : S.cacheKey <+: S.outputKey place := hk ▸ cacheKey_prefix_slot ho
    exact not_below_both (targetKey_prefix_outputKey hp) hcache

theorem background_slot (hp : place.Proper) (h : S.Background (S.slot d place) raw) :
    S.bench.Stores (S.slot d place) raw := by
  rcases h with h | h
  · exact (not_below_both (targetKey_prefix_of_stepsDir h) (cacheKey_prefix_slot hp)).elim
  · exact h

end Setting

end Stage.Optimize

end Trainyard
