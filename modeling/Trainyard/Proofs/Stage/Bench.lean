import Trainyard.Proofs.Memo
import Trainyard.Proofs.Tree.Json
import Trainyard.Stage.Batch

/-!
# Trains with memos

A stage sends trees through a train, and for a program with a digest through the memo of that
digest. What is stored for a digest may be asked for again after the tree has changed. As long
as each digest stands for one tree at each place, an answer is the train's, whether it was
computed or found.
-/

set_option autoImplicit false

namespace Trainyard

/-! ## Digests as names -/

theorem Text.Hex.exists_of_mem_encode {b : Bytes} {c : Char} (h : c ∈ Text.Hex.encode b) :
    ∃ n, n < 16 ∧ c = Text.Hex.digit n := by
  induction b with
  | nil => simp [Text.Hex.encode] at h
  | cons b r ih =>
    have hb : b.toNat < 256 := b.toNat_lt
    rw [Text.Hex.encode, List.mem_cons, List.mem_cons] at h
    rcases h with h | h | h
    · exact ⟨b.toNat / 16, by omega, h⟩
    · exact ⟨b.toNat % 16, by omega, h⟩
    · exact ih h

namespace Digest

theorem length_toList_toHex (d : Digest) : d.toHex.toList.length = 32 := by
  rw [toHex, String.toList_ofList, Text.Hex.length_encode, d.size]

theorem stem_toHex (d : Digest) : Path.Stem d.toHex := by
  have hlength := d.length_toList_toHex
  have hmem {c : Char} (hc : c ∈ d.toHex.toList) : c ≠ '/' ∧ c ≠ '.' := by
    rw [toHex, String.toList_ofList] at hc
    obtain ⟨n, hn, rfl⟩ := Text.Hex.exists_of_mem_encode hc
    have hdigits : ∀ n : Fin 16, Text.Hex.digit n.val ≠ '/' ∧ Text.Hex.digit n.val ≠ '.' := by
      decide
    exact hdigits ⟨n, hn⟩
  refine ⟨fun hempty => ?_, fun h => (hmem h).1 rfl, fun h => (hmem h).2 rfl⟩
  rw [hempty] at hlength
  exact absurd hlength (by decide)

theorem toHex_injective {d e : Digest} (h : d.toHex = e.toHex) : d = e := by
  have hd := d.ofHex_toHex
  rw [h, e.ofHex_toHex] at hd
  exact (Except.ok.inj hd).symm

end Digest

/-! ## Trees in files -/

def Tree.FoundAt (fs : FileSystem) (input : Path) (t : Tree) : Prop :=
  ∃ raw time, fs.stat input = .ok (.file raw time) ∧ ofFile? raw = some t

theorem Tree.FoundAt.evolve {fs fs' : FileSystem} {input : Path} {t : Tree}
    {writes : FileSystem.Writes} (h : FoundAt fs input t) (he : fs.Evolves writes fs')
    (hinput : ∀ raw, ¬ writes (input.key fs.working) raw) : FoundAt fs' input t := by
  obtain ⟨raw, time, hstat, ht⟩ := h
  exact ⟨raw, time, he.stat_file hinput hstat, ht⟩

theorem Tree.eq_of_ofFile?_render {t t' : Tree} (h : ofFile? t.render.toUTF8 = some t') :
    t' = t := by
  rw [ofFile?, Bytes.fromUTF8?_toUTF8, Option.bind_some, parse?_render] at h
  split at h
  next => exact (Option.some.inj h).symm
  next => simp at h

namespace Stage

/-! ## A train that is applied -/

section Apply

variable {tr : Train} {cache : Path} {p : Program} {t : Tree}

theorem obeys_applyTo {R : FileSystem → FileSystem → Prop} (hR : Job.Composes R)
    (hstations : ∀ position stations t, Job.Obeys R (Train.run tr.snapshots position stations t))
    (hmemo : ∀ d ∈ p.digest,
      Job.Obeys R (Memo.transform { inner := tr.optimization, dir := cache.child d.toHex } t)) :
    Job.Obeys R (applyTo tr.optimization cache p t) := by
  rw [applyTo]
  cases hd : p.digest with
  | none => exact Job.obeys_bind hR (hstations _ _ t) fun r => hstations _ _ r
  | some d => exact Job.obeys_bind hR (hmemo d hd) fun r => hstations _ _ r

theorem within_applyTo {working : Key} {writes : FileSystem.Writes}
    (hsnapshots : ∀ dir ∈ tr.snapshots, ∀ place position station b, place.Proper →
      writes (Train.snapshotKey working dir place position station) b)
    (hentry : ∀ d ∈ p.digest, ∀ place s r s', t.place = .ok place →
      (tr.transform t).on s = (.ok r, s') →
      writes (Memo.slot working (cache.child d.toHex) place) (Memo.entry r)) :
    Job.Within working writes (applyTo tr.optimization cache p t) := by
  have hstations (position : Nat) (stations : List Station) (t : Tree) :
      Job.Within working writes (Train.run tr.snapshots position stations t) :=
    Train.within_run hsnapshots position stations t
  exact obeys_applyTo (Job.composes_evolves working writes) hstations fun d hd =>
    Memo.within_transform (hstations _ _ t) (hentry d hd)

end Apply

theorem forall_mem_middle {before after : List Program} {p : Program} {P : Program → Prop} :
    (∀ q ∈ before ++ p :: after, P q) ↔ P p ∧ ∀ q ∈ before ++ after, P q := by
  rw [List.forall_mem_append, List.forall_mem_append, List.forall_mem_cons]
  exact and_left_comm

/-- A train with the directory of its memos, and the tree that each digest stands for at each
place. -/
structure Bench where
  train : Train
  cache : Path
  working : Key
  meaning : Digest → Place → Tree
  fits : ∀ d place r, train.content (meaning d place) = .ok r → r.Fits

namespace Bench

variable (B : Bench)

def slot (d : Digest) (place : Place) : Key :=
  Memo.slot B.working (B.cache.child d.toHex) place

def Stores : FileSystem.Writes := fun k raw =>
  ∃ d place r, place.Proper ∧ B.train.content (B.meaning d place) = .ok r ∧
    k = B.slot d place ∧ raw = Memo.entry r

def Sound (fs : FileSystem) : Prop :=
  ∀ d place, place.Proper →
    Memo.Sound (fun r => B.train.content (B.meaning d place) = .ok r) fs (B.slot d place)

def Means (digest : Option Digest) (t : Tree) : Prop :=
  ∀ d ∈ digest, ∀ place, t.place = .ok place → B.meaning d place = t

def Consistent (fs : FileSystem) (digest : Option Digest) (k : Key) : Prop :=
  ∀ d ∈ digest, ∀ raw time t place, fs.get? k = some (.file raw time) →
    Tree.ofFile? raw = some t → t.place = .ok place → B.meaning d place = t

variable {B} {d e : Digest} {digest : Option Digest} {place other : Place} {k : Key}
  {raw : ByteArray} {fs fs' : FileSystem} {writes : FileSystem.Writes} {p : Program} {t r : Tree}
  {s s' : Site}

/-! ## Entries -/

theorem slot_eq (hp : place.Proper) : B.slot d place =
    B.cache.key B.working ++ d.toHex :: Place.componentsOf (Place.ending "tree") place.segments := by
  rw [slot, Memo.slot, Place.key_within _ _ hp (by decide), Path.key_child d.stem_toHex.plain,
    List.append_assoc]
  rfl

theorem cache_below_slot (hp : place.Proper) : B.cache.key B.working <+: B.slot d place := by
  rw [slot_eq hp]
  exact List.prefix_append _ _

theorem slot_injective (hp : place.Proper) (ho : other.Proper)
    (h : B.slot d place = B.slot e other) : d = e ∧ place = other := by
  rw [slot_eq hp, slot_eq ho, List.append_cancel_left_eq, List.cons.injEq] at h
  refine ⟨Digest.toHex_injective h.1, ?_⟩
  obtain ⟨segments⟩ := place
  rw [Place.mk.injEq]
  exact Place.componentsOf_injective h.2

theorem Stores.below (h : B.Stores k raw) : B.cache.key B.working <+: k := by
  obtain ⟨d, place, r, hp, -, hkey, -⟩ := h
  exact hkey ▸ cache_below_slot hp

theorem Stores.entry (hp : place.Proper) (h : B.Stores (B.slot d place) raw) :
    ∃ r, B.train.content (B.meaning d place) = .ok r ∧ r.Fits ∧ raw = Memo.entry r := by
  obtain ⟨e, other, r, ho, hr, hslot, rfl⟩ := h
  obtain ⟨rfl, rfl⟩ := slot_injective hp ho hslot
  exact ⟨r, hr, B.fits d place r hr, rfl⟩

theorem Sound.evolve (h : B.Sound fs) (he : fs.Evolves writes fs')
    (hw : ∀ d place raw, place.Proper → writes (B.slot d place) raw →
      B.Stores (B.slot d place) raw) : B.Sound fs' := by
  intro d place hp
  exact (h d place hp).evolve he fun raw hraw => (hw d place raw hp hraw).entry hp

theorem sound_of_empty
    (h : ∀ k raw time, B.cache.key B.working <+: k → fs.get? k ≠ some (.file raw time)) :
    B.Sound fs := by
  intro d place hp raw time t hitem
  exact absurd (FileSystem.item?_eq_file.1 hitem) (h _ raw time (cache_below_slot hp))

/-! ## Digests and the trees they stand for -/

theorem Consistent.evolve (h : B.Consistent fs digest k) (he : fs.Evolves writes fs')
    (hk : ∀ raw, ¬ writes k raw) : B.Consistent fs' digest k := by
  intro d hd raw time t place hget ht hplace
  refine h d hd raw time t place ?_ ht hplace
  rcases he.file_cases (FileSystem.item?_eq_file.2 hget) with hsame | ⟨hwritten, -⟩
  · exact FileSystem.item?_eq_file.1 hsame
  · exact absurd hwritten (hk raw)

theorem Consistent.means {input : Path} (h : B.Consistent fs digest (input.key B.working))
    (hw : fs.working = B.working) (ht : Tree.FoundAt fs input t) : B.Means digest t := by
  intro d hd place hplace
  obtain ⟨raw, time, hstat, ht⟩ := ht
  have hfile := FileSystem.item?_of_stat_file hstat
  rw [hw, FileSystem.item?_eq_file] at hfile
  exact h d hd raw time t place hfile ht hplace

theorem consistent_of_saved {input : Path} {time : Nat} (hw : fs.working = B.working)
    (hmeans : B.Means digest t) (hsaved : fs.stat input = .ok (.file t.render.toUTF8 time)) :
    B.Consistent fs digest (input.key B.working) := by
  intro d hd raw modified t' place hget ht hplace
  have hfile := FileSystem.item?_of_stat_file hsaved
  rw [hw, FileSystem.item?_eq_file, hget] at hfile
  cases hfile
  obtain rfl := Tree.eq_of_ofFile?_render ht
  exact hmeans d hd place hplace

/-! ## Answers -/

theorem within_applyTo (hsnapshots : ∀ dir ∈ B.train.snapshots, ∀ place position station b,
      place.Proper → writes (Train.snapshotKey B.working dir place position station) b)
    (hstores : ∀ k raw, B.Stores k raw → writes k raw) (hmeans : B.Means p.digest t) :
    Job.Within B.working writes (applyTo B.train.optimization B.cache p t) := by
  refine Stage.within_applyTo hsnapshots fun d hd place s r s' hplace hrun => hstores _ _ ?_
  have hcontent : B.train.content (B.meaning d place) = .ok r := by
    rw [hmeans d hd place hplace]
    exact Train.passed_of_on_run hrun
  exact ⟨d, place, r, Place.proper_of_ofName hplace, hcontent, rfl, rfl⟩

/-- With sound entries, an answer is the train's, whether or not it was found in a memo. -/
theorem answer_of_on_applyTo (hmeans : B.Means p.digest t) (hw : s.files.working = B.working)
    (hsound : B.Sound s.files)
    (h : (applyTo B.train.optimization B.cache p t).on s = (.ok r, s')) :
    B.train.answer t = .ok r := by
  rw [applyTo] at h
  have hcontent : ∀ s content s', (B.train.transform t).on s = (.ok content, s') →
      B.train.content t = .ok content := fun _ _ _ => Train.passed_of_on_run
  cases hd : p.digest with
  | none =>
    rw [hd] at h
    obtain ⟨content, s₁, htransform, hvalidate⟩ := Job.on_bind_ok h
    rw [Train.answer, hcontent s content s₁ htransform]
    exact Train.passed_of_on_run hvalidate
  | some d =>
    rw [hd] at h
    obtain ⟨content, s₁, htransform, hvalidate⟩ := Job.on_bind_ok h
    obtain ⟨place, s₂, hplaced, -⟩ := Job.on_bind_ok htransform
    have hplace := (Job.on_ofExcept_ok hplaced).1
    have hentry := hsound d place (Place.proper_of_ofName hplace)
    rw [hmeans d hd place hplace] at hentry
    have hgood := Memo.good_of_on_transform hplace hcontent (by rw [hw]; exact hentry) htransform
    rw [Train.answer, hgood]
    exact Train.passed_of_on_run hvalidate

end Bench

end Stage

end Trainyard
