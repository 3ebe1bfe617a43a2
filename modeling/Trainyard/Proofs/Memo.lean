import Trainyard.Memo
import Trainyard.Proofs.Artifact
import Trainyard.Proofs.Train
import Trainyard.Proofs.Tree.Binary

/-!
# Memos are transparent

A memo only ever stores what its transformation made of a tree, so an entry that passes
all checks holds the result for the tree of its place. Whether an answer is computed or
found then makes no difference, over any number of calls and whatever the gates of each.
-/

set_option autoImplicit false

namespace Trainyard.Memo

/-! ## Entries -/

def held? (raw : ByteArray) : Option Tree :=
  match Artifact.decode (Bytes.unpack raw) with
  | .error _ => none
  | .ok payload => (Tree.ofBinary payload).toOption

def entry (t : Tree) : ByteArray := (Artifact.encode producer t.toBinary).pack

theorem brief_producer : Artifact.Brief producer := by
  show _ < UInt32.size / 2
  decide

theorem held?_entry {t : Tree} (h : t.Fits) : held? (entry t) = some t := by
  simp only [held?, entry, Bytes.unpack_pack, Artifact.decode_encode brief_producer,
    Tree.ofBinary_toBinary t h]
  rfl

def slot (working : Key) (dir : Path) (place : Place) : Key :=
  (place.within dir "tree").key working

def Sound (good : Tree → Prop) (fs : FileSystem) (k : Key) : Prop :=
  ∀ raw time t, fs.item? k = some (.file raw time) → held? raw = some t → good t

theorem sound_of_missing {good : Tree → Prop} {fs : FileSystem} {k : Key}
    (h : fs.item? k = none) : Sound good fs k := by
  intro raw time t hitem
  simp [h] at hitem

theorem Sound.mono {good better : Tree → Prop} {fs : FileSystem} {k : Key} (h : Sound good fs k)
    (himp : ∀ t, good t → better t) : Sound better fs k :=
  fun raw time t hitem hheld => himp t (h raw time t hitem hheld)

theorem sound_of_empty {good : Tree → Prop} {fs : FileSystem} {dir : Path}
    (hempty : ∀ names raw time,
      fs.get? (dir.key fs.working ++ names) = some (.file raw time) → held? raw = none)
    {place : Place} (hproper : place.Proper) : Sound good fs (slot fs.working dir place) := by
  intro raw time r hitem hheld
  rw [slot, Place.key_within _ _ hproper (by decide), FileSystem.item?_eq_file] at hitem
  simp [hempty _ raw time hitem] at hheld

/-- An entry stays sound if only good ones are written over it. -/
theorem Sound.evolve {good : Tree → Prop} {fs fs' : FileSystem} {k : Key}
    {writes : FileSystem.Writes} (h : Sound good fs k) (he : fs.Evolves writes fs')
    (hw : ∀ raw, writes k raw → ∃ t, good t ∧ t.Fits ∧ raw = entry t) : Sound good fs' k := by
  intro raw time t hitem hheld
  rcases he.file_cases hitem with hbefore | ⟨hwritten, -⟩
  · exact h raw time t hbefore hheld
  · obtain ⟨r, hgood, hfits, rfl⟩ := hw raw hwritten
    rw [held?_entry hfits] at hheld
    exact Option.some.inj hheld ▸ hgood

/-! ## Lookups -/

section Lookups

variable {m : Memo} {r : Tree} {place : Place} {fs : FileSystem} {raw : ByteArray} {time : Nat}

def seen (m : Memo) (fs : FileSystem) (relative : Path) : Lookup :=
  match m.store.inspect fs relative with
  | .error _ => .miss
  | .ok payload =>
    match Tree.ofBinary payload with
    | .ok t => .hit t
    | .error _ => .undecodable

theorem inspect_of_reaches (hreach : fs.Reaches (m.store.pathOf (place.relative "tree")))
    (hitem : fs.item? (slot fs.working m.dir place) = some (.file raw time)) {payload : Bytes}
    (hdecode : Artifact.decode (Bytes.unpack raw) = .ok payload) :
    m.store.inspect fs (place.relative "tree") = .ok payload := by
  exact Artifact.Store.inspect_of_read (FileSystem.read_of_stat_file (hreach.stat_file hitem))
    hdecode

theorem stat_of_inspect {payload : Bytes}
    (h : m.store.inspect fs (place.relative "tree") = .ok payload) :
    ∃ raw time, fs.stat (m.store.pathOf (place.relative "tree")) = .ok (.file raw time) ∧
      Artifact.decode (Bytes.unpack raw) = .ok payload := by
  obtain ⟨raw, hread, hdecode⟩ := Artifact.Store.inspect_ok h
  obtain ⟨time, hstat⟩ := FileSystem.read_ok hread
  exact ⟨raw, time, hstat, hdecode⟩

theorem seen_of_reaches (hreach : fs.Reaches (m.store.pathOf (place.relative "tree")))
    (hitem : fs.item? (slot fs.working m.dir place) = some (.file raw time))
    (hheld : held? raw = some r) : m.seen fs (place.relative "tree") = .hit r := by
  unfold held? at hheld
  split at hheld
  next => simp at hheld
  next payload hdecode =>
    unfold seen
    rw [inspect_of_reaches hreach hitem hdecode]
    cases hbinary : Tree.ofBinary payload with
    | error e => simp [hbinary, Except.toOption] at hheld
    | ok found => simpa [hbinary, Except.toOption] using hheld

theorem seen_eq_hit {relative : Path} : m.seen fs relative = .hit r ↔
    ∃ payload, m.store.inspect fs relative = .ok payload ∧ Tree.ofBinary payload = .ok r := by
  unfold seen
  cases m.store.inspect fs relative with
  | error e => simp
  | ok payload => cases hbinary : Tree.ofBinary payload <;> simp [hbinary]

theorem reaches_of_seen_hit (h : m.seen fs (place.relative "tree") = .hit r) :
    fs.Reaches (m.store.pathOf (place.relative "tree")) := by
  obtain ⟨payload, hinspect, -⟩ := seen_eq_hit.1 h
  obtain ⟨raw, time, hstat, -⟩ := stat_of_inspect hinspect
  exact FileSystem.reaches_of_stat_file hstat

theorem exists_of_seen_hit (h : m.seen fs (place.relative "tree") = .hit r) :
    ∃ raw time, fs.item? (slot fs.working m.dir place) = some (.file raw time) ∧
      held? raw = some r := by
  obtain ⟨payload, hinspect, hbinary⟩ := seen_eq_hit.1 h
  obtain ⟨raw, time, hstat, hdecode⟩ := stat_of_inspect hinspect
  refine ⟨raw, time, FileSystem.item?_of_stat_file hstat, ?_⟩
  simp [held?, hdecode, hbinary, Except.toOption]

theorem hit_or_no_hit (m : Memo) (fs : FileSystem) (relative : Path) :
    (∃ found, m.seen fs relative = .hit found) ∨ ∀ found, m.seen fs relative ≠ .hit found := by
  cases m.seen fs relative with
  | hit found => exact .inl ⟨found, rfl⟩
  | miss => exact .inr nofun
  | undecodable => exact .inr nofun

theorem seen_congr {fs' : FileSystem} {relative : Path}
    (h : fs'.read (m.store.pathOf relative) = fs.read (m.store.pathOf relative)) :
    m.seen fs' relative = m.seen fs relative := by
  unfold seen
  rw [Artifact.Store.inspect_congr h]

theorem inspect_of_seen_miss {relative : Path} (h : m.seen fs relative = .miss) :
    ∃ e, m.store.inspect fs relative = .error e := by
  unfold seen at h
  cases hinspect : m.store.inspect fs relative with
  | error e => exact ⟨e, rfl⟩
  | ok payload =>
    cases hbinary : Tree.ofBinary payload <;> simp [hinspect, hbinary] at h

end Lookups

/-! ## One transformation -/

section Transform

variable {m : Memo} {t r : Tree} {place : Place} {s s' : Site}

theorem on_lookup (m : Memo) (relative : Path) (s : Site) :
    ∃ s₁, s₁.files = s.files ∧ (m.lookup relative).on s = (.ok (m.seen s.files relative), s₁) := by
  obtain ⟨s₁, hfiles, hread⟩ := m.store.on_read relative s
  rw [lookup, Job.on_bind, hread]
  unfold seen
  cases m.store.inspect s.files relative with
  | error e => exact ⟨s₁, hfiles, rfl⟩
  | ok payload =>
    simp only [Except.toOption]
    cases Tree.ofBinary payload <;>
      exact ⟨{ s₁ with journal := s₁.journal.push _ }, hfiles, rfl⟩

theorem uncounted_lookup (m : Memo) (relative : Path) : Job.Uncounted (m.lookup relative) := by
  refine Job.uncounted_bind (m.store.uncounted_read relative) fun found => ?_
  split
  · exact Job.uncounted_pure _
  · split <;> exact Job.uncounted_bind (Job.uncounted_tell _) fun _ => Job.uncounted_pure _

def tallied (m : Memo) (hit : Bool) (tally : Tally) : Tally :=
  if m.counted then
    if hit then { tally with hits := tally.hits + 1 } else { tally with misses := tally.misses + 1 }
  else tally

theorem on_count (m : Memo) (hit : Bool) (s : Site) :
    (m.count hit).on s = (.ok (), { s with tally := m.tallied hit s.tally }) := by
  rw [count, tallied]
  cases m.counted <;> cases hit <;> rfl

def lookedUp (m : Memo) (relative : Path) (s : Site) : Site :=
  { ((m.lookup relative).on s).2 with
    tally := m.tallied (m.seen s.files relative).isHit s.tally }

theorem files_lookedUp (m : Memo) (relative : Path) (s : Site) :
    (m.lookedUp relative s).files = s.files := by
  obtain ⟨s₁, hfiles, hlookup⟩ := m.on_lookup relative s
  rw [lookedUp, hlookup]
  exact hfiles

theorem on_transform_lookedUp (hplace : t.place = .ok place) (s : Site) :
    (m.transform t).on s =
      match m.seen s.files (place.relative "tree") with
      | .hit found => (.ok found, m.lookedUp (place.relative "tree") s)
      | .miss =>
        (m.compute (place.relative "tree") false t).on (m.lookedUp (place.relative "tree") s)
      | .undecodable =>
        (m.compute (place.relative "tree") true t).on (m.lookedUp (place.relative "tree") s) := by
  obtain ⟨s₁, -, hlookup⟩ := m.on_lookup (place.relative "tree") s
  have htally : s₁.tally = s.tally := by
    have h := m.uncounted_lookup (place.relative "tree") s
    rwa [hlookup] at h
  simp only [transform, Job.on_bind, Job.on_ofExcept, hplace, mapError_ok, lookedUp, hlookup,
    on_count, htally]
  cases m.seen s.files (place.relative "tree") <;> rfl

theorem on_transform (hplace : t.place = .ok place) (s : Site) :
    ∃ s₁, s₁.files = s.files ∧ (m.transform t).on s =
      match m.seen s.files (place.relative "tree") with
      | .hit found => (.ok found, s₁)
      | .miss => (m.compute (place.relative "tree") false t).on s₁
      | .undecodable => (m.compute (place.relative "tree") true t).on s₁ :=
  ⟨_, m.files_lookedUp _ s, on_transform_lookedUp hplace s⟩

theorem on_transform_of_unplaced {e : PlaceError} (h : t.place = .error e) (s : Site) :
    (m.transform t).on s = (.error (.place e), s) := by
  rw [transform, Job.on_bind, Job.on_ofExcept, h]
  rfl

theorem on_transform_of_hit (hplace : t.place = .ok place)
    (h : m.seen s.files (place.relative "tree") = .hit r) (inner : Optimization) :
    (Memo.transform { m with inner := inner } t).on s =
      (.ok r, m.lookedUp (place.relative "tree") s) := by
  have hseen : Memo.seen { m with inner := inner } s.files (place.relative "tree") = .hit r := h
  rw [on_transform_lookedUp hplace, hseen]
  rfl

/-- Without a hit the tree is transformed anew. Where the result is not to be replaced, no good
artifact stands. -/
theorem on_transform_of_no_hit (hplace : t.place = .ok place)
    (h : ∀ r, m.seen s.files (place.relative "tree") ≠ .hit r) :
    ∃ replace,
      (replace = false → ∃ e, m.store.inspect s.files (place.relative "tree") = .error e) ∧
      (m.transform t).on s = (m.compute (place.relative "tree") replace t).on
        (m.lookedUp (place.relative "tree") s) := by
  rw [on_transform_lookedUp hplace]
  cases hseen : m.seen s.files (place.relative "tree") with
  | hit r => exact absurd hseen (h r)
  | miss => exact ⟨false, fun _ => inspect_of_seen_miss hseen, rfl⟩
  | undecodable => exact ⟨true, nofun, rfl⟩

theorem on_record {relative : Path} {replace : Bool}
    (hfree : replace = false → ∃ e, m.store.inspect s.files relative = .error e) (r : Tree) :
    (m.record relative replace r).on s =
      ((((m.store.write relative r.toBinary).on s).1.map fun _ => ()).mapError .cache,
        ((m.store.write relative r.toBinary).on s).2) := by
  rcases hwrite : (m.store.write relative r.toBinary).on s with ⟨written, s'⟩
  cases replace with
  | true =>
    simp only [record, if_true, Job.on_adapt, Job.on_bind, hwrite]
    cases written <;> rfl
  | false =>
    obtain ⟨e, he⟩ := hfree rfl
    simp only [record, Bool.false_eq_true, if_false, Job.on_adapt, Job.on_bind,
      Artifact.Store.on_writeOnce_of_inspect he, hwrite]
    cases written <;> rfl

/-- What a memo answers is good if its transformation makes good trees and its entry is
sound. -/
theorem good_of_on_transform {good : Tree → Prop} (hplace : t.place = .ok place)
    (hinner : ∀ s r s', (m.inner.transform t).on s = (.ok r, s') → good r)
    (hsound : Sound good s.files (slot s.files.working m.dir place))
    (h : (m.transform t).on s = (.ok r, s')) : good r := by
  have hcompute (replace : Bool) (s₁ : Site)
      (h : (m.compute (place.relative "tree") replace t).on s₁ = (.ok r, s')) : good r := by
    obtain ⟨result, s₂, hresult, h⟩ := Job.on_bind_ok h
    obtain ⟨⟨⟩, s₃, -, h⟩ := Job.on_bind_ok h
    cases h
    exact hinner s₁ r s₂ hresult
  obtain ⟨s₁, -, htransform⟩ := m.on_transform hplace s
  rw [htransform] at h
  cases hseen : m.seen s.files (place.relative "tree") with
  | hit found =>
    rw [hseen] at h
    cases h
    obtain ⟨raw, time, hitem, hheld⟩ := exists_of_seen_hit hseen
    exact hsound raw time r hitem hheld
  | miss =>
    rw [hseen] at h
    exact hcompute false s₁ h
  | undecodable =>
    rw [hseen] at h
    exact hcompute true s₁ h

theorem obeys_transform {R : FileSystem → FileSystem → Prop} (hR : Job.Composes R)
    (hinner : Job.Obeys R (m.inner.transform t))
    (hrecord : ∀ place s r s', t.place = .ok place → (m.inner.transform t).on s = (.ok r, s') →
      Job.Obeys R (m.store.write (place.relative "tree") r.toBinary) ∧
        Job.Obeys R (m.store.writeOnce (place.relative "tree") r.toBinary)) :
    Job.Obeys R (m.transform t) := by
  have hplaced : ∀ s place s', (Job.ofExcept WorkError.place t.place).on s = (.ok place, s') →
      t.place = .ok place := fun s place s' h => (Job.on_ofExcept_ok h).1
  refine Job.obeys_bind_of hR _ (Job.obeys_ofExcept hR _ _) hplaced fun place hplace => ?_
  have hcompute (replace : Bool) :
      Job.Obeys R (m.compute (place.relative "tree") replace t) := by
    refine Job.obeys_bind_of hR _ hinner (fun s r s' h => hrecord place s r s' hplace h)
      fun r hr => ?_
    refine Job.obeys_bind hR (Job.obeys_adapt _ ?_) fun _ => Job.obeys_pure hR r
    split
    · exact Job.obeys_bind hR hr.1 fun _ => Job.obeys_pure hR ()
    · exact Job.obeys_bind hR hr.2 fun _ => Job.obeys_pure hR ()
  have hlookup : Job.Obeys R (m.lookup (place.relative "tree")) := by
    refine Job.obeys_of_files_eq hR fun s => ?_
    obtain ⟨s₁, hfiles, h⟩ := m.on_lookup (place.relative "tree") s
    rw [h]
    exact hfiles
  refine Job.obeys_bind hR hlookup fun answer => ?_
  have hcount : Job.Obeys R (m.count answer.isHit) := by
    refine Job.obeys_of_files_eq hR fun s => ?_
    rw [m.on_count answer.isHit s]
  refine Job.obeys_bind hR hcount fun _ => ?_
  cases answer with
  | hit found => exact Job.obeys_pure hR found
  | miss => exact hcompute false
  | undecodable => exact hcompute true

/-- A memo writes what its transformation writes, and the entry of a result. -/
theorem within_transform {working : Key} {writes : FileSystem.Writes}
    (hinner : Job.Within working writes (m.inner.transform t))
    (hw : ∀ place s r s', t.place = .ok place → (m.inner.transform t).on s = (.ok r, s') →
      writes (slot working m.dir place) (entry r)) :
    Job.Within working writes (m.transform t) := by
  refine obeys_transform (Job.composes_evolves working writes) hinner
    fun place s r s' hplace hrun => ?_
  have hr := hw place s r s' hplace hrun
  exact ⟨Artifact.Store.within_write hr, Artifact.Store.within_writeOnce hr⟩

end Transform

/-! ## Computing anew -/

section Computing

variable {m : Memo} {f : Tree → Except WorkError Tree} {t r : Tree} {relative : Path}
  {replace : Bool} {s s' : Site}

theorem on_compute_of_error (hinner : m.inner.Computes f) {e : WorkError} (h : f t = .error e) :
    (m.compute relative replace t).on s = (.error e, ((m.inner.transform t).on s).2) := by
  rw [compute, Job.on_bind, Job.on_of_fst ((hinner t s).1.trans h)]

theorem on_compute_of_ok (hinner : m.inner.Computes f) (h : f t = .ok r)
    (hfree : replace = false → ∃ e, m.store.inspect s.files relative = .error e) :
    (m.compute relative replace t).on s =
      ((((m.store.write relative r.toBinary).on ((m.inner.transform t).on s).2).1.map
          fun _ => r).mapError .cache,
        ((m.store.write relative r.toBinary).on ((m.inner.transform t).on s).2).2) := by
  obtain ⟨hanswer, hfiles⟩ := hinner t s
  rw [compute, Job.on_bind, Job.on_of_fst (hanswer.trans h)]
  rw [← hfiles] at hfree
  simp only [Job.on_bind, on_record hfree r]
  cases ((m.store.write relative r.toBinary).on ((m.inner.transform t).on s).2).1 <;> rfl

theorem on_compute_ok (hinner : m.inner.Computes f)
    (hfree : replace = false → ∃ e, m.store.inspect s.files relative = .error e)
    (h : (m.compute relative replace t).on s = (.ok r, s')) : f t = .ok r ∧
      ∃ path, (m.store.write relative r.toBinary).on ((m.inner.transform t).on s).2 =
        (.ok path, s') := by
  cases hf : f t with
  | error e =>
    rw [on_compute_of_error hinner hf] at h
    cases h
  | ok result =>
    rw [on_compute_of_ok hinner hf hfree] at h
    rcases hwrite : (m.store.write relative result.toBinary).on ((m.inner.transform t).on s).2
      with ⟨written, s₁⟩
    rw [hwrite] at h
    cases written with
    | error e => cases h
    | ok path =>
      cases h
      exact ⟨rfl, path, hwrite⟩

theorem seen_of_on_write (hfits : r.Fits) {path : Path}
    (h : (m.store.write relative r.toBinary).on s = (.ok path, s')) :
    m.seen s'.files relative = .hit r := by
  have hinspect : m.store.inspect s'.files relative = .ok r.toBinary :=
    Artifact.Store.inspect_of_on_write brief_producer h
  exact seen_eq_hit.2 ⟨_, hinspect, Tree.ofBinary_toBinary r hfits⟩

variable {place : Place}

theorem on_transform_of_failure (hinner : m.inner.Computes f) (hplace : t.place = .ok place)
    (hno : ∀ found, m.seen s.files (place.relative "tree") ≠ .hit found) {e : WorkError}
    (h : f t = .error e) : ∃ s', (m.transform t).on s = (.error e, s') ∧ s'.files = s.files := by
  obtain ⟨replace, -, htransform⟩ := on_transform_of_no_hit hplace hno
  refine ⟨_, htransform.trans (on_compute_of_error hinner h), ?_⟩
  exact (hinner t _).2.trans (m.files_lookedUp _ s)

theorem on_transform_of_stored (hinner : m.inner.Computes f) (hplace : t.place = .ok place)
    (hno : ∀ found, m.seen s.files (place.relative "tree") ≠ .hit found) (h : f t = .ok r)
    {path : Path}
    (hwrite : ((m.store.write (place.relative "tree") r.toBinary).on s).1 = .ok path) :
    ∃ s', (m.transform t).on s = (.ok r, s') := by
  obtain ⟨replace, hfree, htransform⟩ := on_transform_of_no_hit hplace hno
  have hfiles := m.files_lookedUp (place.relative "tree") s
  rw [← hfiles] at hfree
  rw [← Artifact.Store.fst_on_write_congr ((hinner t _).2.trans hfiles)] at hwrite
  rw [htransform, on_compute_of_ok hinner h hfree, hwrite]
  exact ⟨_, rfl⟩

theorem seen_of_on_transform (hinner : m.inner.Computes f) (hplace : t.place = .ok place)
    (hfits : ∀ r, f t = .ok r → r.Fits) (h : (m.transform t).on s = (.ok r, s')) :
    m.seen s'.files (place.relative "tree") = .hit r := by
  have hfiles := m.files_lookedUp (place.relative "tree") s
  rcases m.hit_or_no_hit s.files (place.relative "tree") with ⟨found, hfound⟩ | hno
  · cases h.symm.trans (on_transform_of_hit hplace hfound m.inner)
    rw [hfiles]
    exact hfound
  · obtain ⟨replace, hfree, htransform⟩ := on_transform_of_no_hit hplace hno
    rw [← hfiles] at hfree
    obtain ⟨hr, path, hwrite⟩ := on_compute_ok hinner hfree (htransform.symm.trans h)
    exact seen_of_on_write (hfits r hr) hwrite

theorem within_transform_of_ok (hinner : m.inner.Computes f) (hplace : t.place = .ok place)
    (hr : f t = .ok r) (working : Key) : Job.Within working
      (fun k raw => k = slot working m.dir place ∧ raw = entry r) (m.transform t) := by
  refine within_transform ?_ fun place' s₁ r' s₂ hplace' hrun => ?_
  · exact Job.obeys_of_files_eq (Job.composes_evolves _ _) fun s₁ => (hinner t s₁).2
  · have hr' : f t = .ok r' := by rw [← (hinner t s₁).1, hrun]
    cases hplace.symm.trans hplace'
    cases hr.symm.trans hr'
    exact ⟨rfl, rfl⟩

end Computing

end Trainyard.Memo
