import Mathlib.Order.Basic
import Trainyard.Proofs.Memo

/-!
# Bad entries are mended and failures are forgotten

Whatever stands at the path of an entry, a memo that answers leaves an entry there that
passes all checks and holds the answer. A good entry is never touched again, and where
the transformation fails no file is.
-/

set_option autoImplicit false

namespace Trainyard.Memo

def Remembers (m : Memo) (fs : FileSystem) (place : Place) (r : Tree) : Prop :=
  ∃ payload, m.store.inspect fs (place.relative "tree") = .ok payload ∧
    Tree.ofBinary payload = .ok r

section Remembering

variable {m : Memo} {fs fs' : FileSystem} {t r : Tree} {place : Place} {s : Site}

theorem remembers_iff : m.Remembers fs place r ↔ m.seen fs (place.relative "tree") = .hit r :=
  seen_eq_hit.symm

theorem Remembers.congr (h : m.Remembers fs place r)
    (hread : fs'.read (m.store.pathOf (place.relative "tree")) =
      fs.read (m.store.pathOf (place.relative "tree"))) : m.Remembers fs' place r :=
  remembers_iff.2 ((seen_congr hread).trans (remembers_iff.1 h))

/-- What is remembered is the answer of any memo in the directory, and no file is touched. -/
theorem Remembers.on_transform (h : m.Remembers s.files place r) (hplace : t.place = .ok place) :
    ∃ s', s'.files = s.files ∧
      ∀ inner, (Memo.transform { m with inner := inner } t).on s = (.ok r, s') :=
  ⟨_, m.files_lookedUp _ s, on_transform_of_hit hplace (remembers_iff.1 h)⟩

end Remembering

/-- A memo around a transformation that depends on the tree alone, whatever the files are. An
answer is remembered, and as long as its entry is left alone it is given again, whatever would
become of the tree if it were transformed. A good entry stays, with all other files. Without one a
failure is the answer and all files stay; a result is the answer if it can be stored. -/
theorem transform_mends_entry (m : Memo) (f : Tree → Except WorkError Tree)
    (hinner : m.inner.Computes f) (t : Tree) (place : Place) (hplace : t.place = .ok place)
    (hfits : ∀ r, f t = .ok r → r.Fits) (s : Site) :
    (∀ r s', (m.transform t).on s = (.ok r, s') → m.Remembers s'.files place r ∧
      ∀ later : Site, later.files.read (m.store.pathOf (place.relative "tree")) =
          s'.files.read (m.store.pathOf (place.relative "tree")) →
        ∃ after, after.files = later.files ∧
          ∀ inner, (Memo.transform { m with inner := inner } t).on later = (.ok r, after)) ∧
    (∀ r, m.Remembers s.files place r →
      ∃ s', (m.transform t).on s = (.ok r, s') ∧ s'.files = s.files) ∧
    ((∀ r, ¬ m.Remembers s.files place r) →
      (∀ e, f t = .error e → ∃ s', (m.transform t).on s = (.error e, s') ∧ s'.files = s.files) ∧
      ∀ r path, f t = .ok r →
        ((m.store.write (place.relative "tree") r.toBinary).on s).1 = .ok path →
        ∃ s', (m.transform t).on s = (.ok r, s')) := by
  refine ⟨fun r s' h => ?_, fun r h => ?_, fun hnone => ?_⟩
  · have hremembers : m.Remembers s'.files place r :=
      remembers_iff.2 (seen_of_on_transform hinner hplace hfits h)
    exact ⟨hremembers, fun later hread => (hremembers.congr hread).on_transform hplace⟩
  · obtain ⟨s', hfiles, htransform⟩ := h.on_transform hplace
    exact ⟨s', htransform m.inner, hfiles⟩
  · have hno : ∀ found, m.seen s.files (place.relative "tree") ≠ .hit found :=
      fun found hfound => hnone found (remembers_iff.2 hfound)
    refine ⟨fun e he => ?_, fun r path hr hwrite => ?_⟩
    · exact on_transform_of_failure hinner hplace hno he
    · exact on_transform_of_stored hinner hplace hno hr hwrite

/-- A good artifact that holds no tree is replaced by the result, which is then found by a memo
whose transformation always fails. -/
theorem transform_mends_entry_undecodable :
    let mark : Step := ⟨"mark", fun t => .ok (t.addError ⟨.warning, "odd", none, none⟩)⟩
    let marked : Tree := (Tree.ofName "a").addError ⟨.warning, "odd", none, none⟩
    let m : Memo := ⟨Train.optimization ⟨[mark], [], none⟩, ⟨"cache"⟩, true⟩
    let failing : Step := ⟨"fail", fun _ => .error ⟨"no"⟩⟩
    let bad : ByteArray := (Artifact.encode producer [1, 2, 3]).pack
    let cache : Entry := .directory [("a.tree", .file bad 0)] 0
    let s : Site := { files := ⟨.directory [("cache", cache)] 0, [], 5⟩ }
    (∀ r, ¬ m.Remembers s.files ⟨["a"]⟩ r) ∧
      ∃ s' after, (m.transform (.ofName "a")).on s = (.ok marked, s') ∧
        m.Remembers s'.files ⟨["a"]⟩ marked ∧ after.files = s'.files ∧
        (Memo.transform { m with inner := Train.optimization ⟨[failing], [], none⟩ }
          (.ofName "a")).on s' = (.ok marked, after) := by
  intro mark marked m failing bad cache s
  have hplace : (Tree.ofName "a").place = .ok ⟨["a"]⟩ := by decide +kernel
  have hinspect : m.store.inspect s.files (Place.relative ⟨["a"]⟩ "tree") = .ok [1, 2, 3] := by
    decide +kernel
  have hundecodable : (Tree.ofBinary [1, 2, 3]).toOption = none := by decide +kernel
  have hnone : ∀ r, ¬ m.Remembers s.files ⟨["a"]⟩ r := by
    rintro r ⟨payload, hpayload, hr⟩
    obtain rfl := Except.ok.inj (hinspect.symm.trans hpayload)
    simp [hr, Except.toOption] at hundecodable
  have hfits : ∀ r, (.ok marked : Except WorkError Tree) = .ok r → r.Fits := by
    rintro r ⟨⟩
    exact (Tree.fits_ofName (by decide)).addError ⟨by decide, by simp⟩ (by decide)
  obtain ⟨hanswered, -, hmissing⟩ := transform_mends_entry m _ (Train.computes_of_plain rfl)
    (.ofName "a") ⟨["a"]⟩ hplace hfits s
  obtain ⟨s', htransform⟩ := (hmissing hnone).2 marked ⟨"cache/a.tree"⟩ rfl (by decide +kernel)
  obtain ⟨hremembers, hagain⟩ := hanswered marked s' htransform
  obtain ⟨after, hfiles, hother⟩ := hagain s' rfl
  exact ⟨hnone, s', after, htransform, hremembers, hfiles, hother _⟩

end Trainyard.Memo
