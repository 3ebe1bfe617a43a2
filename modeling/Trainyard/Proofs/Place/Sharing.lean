import Trainyard.Proofs.Parent
import Trainyard.Proofs.Stage.Bench

/-!
# Names that share a path

A name has a place unless a slash is in it or nothing but dots. Two names have the same file
exactly if their segments and extensions are the same, however the dots between the segments are
written. A file has a dot in its last component and the directories above files have none, so a
file is never where a directory has to be. The entries of a cache are told apart in the same way,
after the digests they are filed under.
-/

set_option autoImplicit false

namespace Trainyard

/-! ## Paths that name the same steps -/

namespace Path

/-- The same names lie along both paths. Blank pieces make no difference. -/
structure SameSteps (p q : Path) : Prop where
  absolute : p.isAbsolute = q.isAbsolute
  names : p.names = q.names

inductive Above : Path → Path → Prop
  | parent {dir p : Path} (h : p.parent? = some dir) : Above dir p
  | further {dir mid p : Path} (h : p.parent? = some mid) (habove : Above dir mid) : Above dir p

theorem SameSteps.refl (p : Path) : p.SameSteps p := ⟨rfl, rfl⟩

theorem filter_names (p : Path) :
    p.names.filter (· ≠ ".") = (p.components.filter (· ≠ ".")).reverse := by
  have hlead : (if p.pieces.head? = some "." then ["."] else []).filter (· ≠ ".") =
      ([] : List String) := by
    split <;> simp
  rw [names_eq, List.filter_append, hlead, List.append_nil, ← filter_components,
    List.filter_reverse, List.filter_filter]
  simp

theorem SameSteps.filter_components {p q : Path} (h : p.SameSteps q) :
    p.components.filter (· ≠ ".") = q.components.filter (· ≠ ".") := by
  have hnames := congrArg (List.filter (· ≠ ".")) h.names
  rw [filter_names, filter_names] at hnames
  exact List.reverse_injective hnames

theorem Above.filter_components {dir p : Path} (h : dir.Above p) :
    dir.components.filter (· ≠ ".") <+: (p.components.filter (· ≠ ".")).dropLast := by
  induction h with
  | parent h => exact (heads_of_parent? h).names ▸ List.prefix_rfl
  | further h _ ih =>
    rw [(heads_of_parent? h).names] at ih
    exact ih.trans (List.dropLast_prefix _)

theorem filter_of_plain {names : List String} (h : ∀ name ∈ names, Plain name) :
    names.filter (· ≠ ".") = names := by
  rw [List.filter_eq_self]
  intro name hname
  simpa using (h name hname).dot

end Path

/-! ## Names that have a place -/

theorem Text.exists_mem_split {sep c : Char} {cs : List Char} (hc : c ∈ cs) (hne : c ≠ sep) :
    ∃ part ∈ Text.split sep cs, c ∈ part := by
  induction cs with
  | nil => simp at hc
  | cons d r ih =>
    rw [Text.split_cons]
    cases hsplit : Text.split sep r with
    | nil => exact absurd hsplit (Text.split_ne_nil sep r)
    | cons p ps =>
      rw [hsplit] at ih
      rw [Text.prepend]
      rcases List.mem_cons.1 hc with rfl | hc
      · rw [if_neg hne]
        exact ⟨c :: p, by simp, by simp⟩
      · obtain ⟨part, hpart, hmem⟩ := ih hc
        split
        · exact ⟨part, List.mem_cons_of_mem _ hpart, hmem⟩
        · rcases List.mem_cons.1 hpart with rfl | hpart
          · exact ⟨d :: part, by simp, by simp [hmem]⟩
          · exact ⟨part, by simp [hpart], hmem⟩

namespace Place

theorem exists_mem_segmentsOf {name : String} {c : Char} (hc : c ∈ name.toList) (hne : c ≠ '.') :
    ∃ segment ∈ segmentsOf name, c ∈ segment.toList := by
  obtain ⟨part, hpart, hmem⟩ := Text.exists_mem_split hc hne
  have hfull : part ≠ [] := List.ne_nil_of_mem hmem
  refine ⟨String.ofList part, ?_, by simpa using hmem⟩
  rw [segmentsOf, List.mem_filter]
  exact ⟨List.mem_map_of_mem hpart, by simpa [String.ofList_eq_empty_iff] using hfull⟩

/-- A name has a place if no slash is in it and not only dots. -/
theorem exists_ofName_iff (name : String) : (∃ place, ofName name = .ok place) ↔
    '/' ∉ name.toList ∧ ∃ c ∈ name.toList, c ≠ '.' := by
  constructor
  · rintro ⟨place, hplace⟩
    have hp := proper_of_ofName hplace
    have hsegments := segments_of_ofName hplace
    constructor
    · intro hslash
      obtain ⟨segment, hsegment, hmem⟩ := exists_mem_segmentsOf hslash (by decide)
      exact hp.slash segment (hsegments ▸ hsegment) hmem
    · obtain ⟨segment, hsegment⟩ := List.exists_mem_of_ne_nil _ hp.nonempty
      have hfull : segment.toList ≠ [] :=
        fun h => hp.ne segment hsegment (String.toList_eq_nil_iff.1 h)
      obtain ⟨c, hc⟩ := List.exists_mem_of_ne_nil _ hfull
      refine ⟨c, subset_of_mem_segmentsOf (hsegments ▸ hsegment) hc, fun hdot => ?_⟩
      exact hp.dot segment hsegment (hdot ▸ hc)
  · rintro ⟨hslash, c, hc, hdot⟩
    obtain ⟨segment, hsegment, -⟩ := exists_mem_segmentsOf hc hdot
    have hfind : (segmentsOf name).find? hasSlash = none := by
      rw [List.find?_eq_none]
      intro segment hsegment hhas
      exact hslash (subset_of_mem_segmentsOf hsegment (by simpa [hasSlash] using hhas))
    refine ⟨⟨segmentsOf name⟩, ?_⟩
    rw [ofName]
    split
    next hnil => simp [hnil] at hsegment
    next => rw [hfind]

theorem eq_of_segments {p q : Place} (h : p.segments = q.segments) : p = q := by
  obtain ⟨ss⟩ := p
  rw [Place.mk.injEq]
  exact h

/-! ## Files of places -/

section Files

variable {p q : Place} (hp : p.Proper) (hq : q.Proper) {e f : String} (he : '/' ∉ e.toList)
  (hf : '/' ∉ f.toList)

include hp he

theorem filter_components_relative :
    (p.relative e).components.filter (· ≠ ".") = componentsOf (ending e) p.segments := by
  rw [components_relative hp he]
  exact Path.filter_of_plain fun c hc => plain_of_mem_componentsOf hp he hc

include hq hf

theorem eq_of_componentsOf (hne : e ≠ "") (hne' : f ≠ "")
    (h : componentsOf (ending e) p.segments = componentsOf (ending f) q.segments) :
    e = f ∧ p.segments = q.segments := by
  obtain ⟨front, last, hlast, -⟩ := exists_file hp he
  obtain ⟨front', last', hlast', -⟩ := exists_file hq hf
  have hdot : '.' ∉ last.toList := hp.dot last (by simp [hlast])
  have hdot' : '.' ∉ last'.toList := hq.dot last' (by simp [hlast'])
  rw [hlast, hlast', componentsOf_append, componentsOf_append] at h
  obtain ⟨hfront, hname⟩ := List.append_inj' h rfl
  obtain ⟨hstem, hextension⟩ :=
    eq_of_append_ending (List.cons.inj hname).1 hdot hdot' hne hne'
  rw [hlast, hlast', hfront, hstem]
  exact ⟨hextension, rfl⟩

theorem eq_of_sameSteps_relative (hne : e ≠ "") (hne' : f ≠ "")
    (h : (p.relative e).SameSteps (q.relative f)) : e = f ∧ p.segments = q.segments := by
  have hcomponents := h.filter_components
  rw [filter_components_relative hp he, filter_components_relative hq hf] at hcomponents
  exact eq_of_componentsOf hp hq he hf hne hne' hcomponents

/-- Above a file there are directories without a dot in their names, so none of them is a file. -/
theorem not_sameSteps_of_above (hne : e ≠ "") {dir : Path} (habove : dir.Above (q.relative f)) :
    ¬ (p.relative e).SameSteps dir := by
  intro hsame
  obtain ⟨front, last, hlast, -⟩ := exists_file hp he
  obtain ⟨front', last', hlast', hstems, -⟩ := exists_file hq hf
  have hsteps := habove.filter_components
  rw [← hsame.filter_components, filter_components_relative hp he,
    filter_components_relative hq hf, hlast, hlast', componentsOf_append, componentsOf_append,
    List.dropLast_concat] at hsteps
  have hfile : last ++ ending e ∈ front' := hsteps.subset (by simp)
  refine (hstems _ hfile).dot ?_
  simp [ending, hne]

end Files

end Place

/-! ## Entries of a cache -/

namespace Stage

/-- Where the result for a program's tree is kept: below the digest of the program, at the place of
the tree. Without a digest or a place there is no such path. -/
def entryPath (o : Optimization) (cache : Path) (p : Program) (t : Tree) : Option Path := do
  let d ← p.digest
  let place ← t.place.toOption
  some ((Memo.store { inner := o, dir := cache.child d.toHex }).pathOf (place.relative "tree"))

section Entries

variable {o o' : Optimization} {cache entry entry' : Path} {p p' : Program} {t t' : Tree}

theorem entryPath_eq_some (h : entryPath o cache p t = some entry) : ∃ d place,
    p.digest = some d ∧ t.place = .ok place ∧ place.Proper ∧
      entry = place.within (cache.child d.toHex) "tree" := by
  obtain ⟨d, hd, h⟩ := Option.bind_eq_some_iff.1 h
  obtain ⟨place, hplace, h⟩ := Option.bind_eq_some_iff.1 h
  cases ht : t.place with
  | error cause =>
    rw [ht] at hplace
    cases hplace
  | ok found =>
    rw [ht] at hplace
    obtain rfl : found = place := Option.some.inj hplace
    exact ⟨d, found, hd, rfl, Place.proper_of_ofName ht, (Option.some.inj h).symm⟩

theorem within_applyTo_entry {tr : Train} (h : tr.snapshots = none) (cache : Path) (p : Program)
    (t : Tree) (working : Key) :
    Job.Within working
      (fun k _ => ∃ entry, entryPath tr.optimization cache p t = some entry ∧ k = entry.key working)
      (applyTo tr.optimization cache p t) := by
  refine within_applyTo (by simp [h]) fun d hd place _ _ _ hplace _ => ⟨_, ?_, rfl⟩
  rw [entryPath, hd, hplace]
  rfl

theorem filter_components_entry (cache : Path) (d : Digest) {place : Place} (hp : place.Proper) :
    (place.within (cache.child d.toHex) "tree").components.filter (· ≠ ".") =
      cache.components.filter (· ≠ ".") ++
        d.toHex :: Place.componentsOf (Place.ending "tree") place.segments := by
  have hdigest := d.stem_toHex.plain
  have hplace : ∀ c ∈ Place.componentsOf (Place.ending "tree") place.segments, Path.Plain c :=
    fun c hc => Place.plain_of_mem_componentsOf hp (by decide) hc
  rw [Place.within_eq_descend hp (by decide), Path.components_descend hplace,
    Path.components_child hdigest, List.append_assoc, List.filter_append]
  exact congrArg _ (Path.filter_of_plain (List.forall_mem_cons.2 ⟨hdigest, hplace⟩))

/-- An entry tells the digest and the segments it belongs to. -/
theorem eq_of_sameSteps_entryPath (h : entryPath o cache p t = some entry)
    (h' : entryPath o' cache p' t' = some entry') (hsame : entry.SameSteps entry') :
    p.digest = p'.digest ∧
      Place.segmentsOf t.nameOrAnonymous = Place.segmentsOf t'.nameOrAnonymous := by
  obtain ⟨d, place, hd, hplace, hp, rfl⟩ := entryPath_eq_some h
  obtain ⟨d', place', hd', hplace', hp', rfl⟩ := entryPath_eq_some h'
  have hcomponents := hsame.filter_components
  rw [filter_components_entry cache d hp, filter_components_entry cache d' hp',
    List.append_cancel_left_eq, List.cons.injEq] at hcomponents
  rw [hd, hd', Digest.toHex_injective hcomponents.1, ← Place.segments_of_ofName hplace,
    ← Place.segments_of_ofName hplace']
  exact ⟨rfl, Place.componentsOf_injective hcomponents.2⟩

theorem entryPath_congr (h : entryPath o cache p t = some entry)
    (h' : entryPath o' cache p' t' = some entry') (hdigest : p.digest = p'.digest)
    (hsegments : Place.segmentsOf t.nameOrAnonymous = Place.segmentsOf t'.nameOrAnonymous) :
    entry = entry' := by
  obtain ⟨d, place, hd, hplace, -, rfl⟩ := entryPath_eq_some h
  obtain ⟨d', place', hd', hplace', -, rfl⟩ := entryPath_eq_some h'
  obtain rfl : d = d' := Option.some.inj (hd.symm.trans (hdigest.trans hd'))
  rw [← Place.segments_of_ofName hplace, ← Place.segments_of_ofName hplace'] at hsegments
  rw [Place.eq_of_segments hsegments]

end Entries

end Stage

/-- Which names have a place, which of them share a file, that no file is a directory above
another, and which results share an entry of a cache, where alone they are written. Paths may be
compared as texts or by the names along them. -/
theorem paths_tell_segments :
    (∀ name, (∃ place, Place.ofName name = .ok place) ↔
      '/' ∉ name.toList ∧ ∃ c ∈ name.toList, c ≠ '.') ∧
    (∀ (a b : String) (p q : Place) (e f : String), Place.ofName a = .ok p →
      Place.ofName b = .ok q → e ≠ "" → '/' ∉ e.toList → f ≠ "" → '/' ∉ f.toList →
      (p.relative e = q.relative f ↔ e = f ∧ Place.segmentsOf a = Place.segmentsOf b) ∧
        ((p.relative e).SameSteps (q.relative f) ↔ p.relative e = q.relative f) ∧
        ∀ dir : Path, dir.Above (q.relative f) → ¬ (p.relative e).SameSteps dir) ∧
    (∀ (o o' : Optimization) (cache entry entry' : Path) (p p' : Program) (t t' : Tree),
      Stage.entryPath o cache p t = some entry → Stage.entryPath o' cache p' t' = some entry' →
      (entry = entry' ↔ p.digest = p'.digest ∧
          Place.segmentsOf t.nameOrAnonymous = Place.segmentsOf t'.nameOrAnonymous) ∧
        (entry.SameSteps entry' ↔ entry = entry')) ∧
    ∀ (tr : Train) (cache : Path) (p : Program) (t : Tree) (working : Key), tr.snapshots = none →
      Job.Within working (fun k _ => ∃ entry,
        Stage.entryPath tr.optimization cache p t = some entry ∧ k = entry.key working)
        (Stage.applyTo tr.optimization cache p t) := by
  refine ⟨Place.exists_ofName_iff, ?_, ?_, fun tr cache p t working h =>
    Stage.within_applyTo_entry h cache p t working⟩
  · intro a b p q e f ha hb hne he hne' hf
    have hp := Place.proper_of_ofName ha
    have hq := Place.proper_of_ofName hb
    rw [← Place.segments_of_ofName ha, ← Place.segments_of_ofName hb]
    have htells : (p.relative e).SameSteps (q.relative f) → e = f ∧ p.segments = q.segments :=
      Place.eq_of_sameSteps_relative hp hq he hf hne hne'
    have hequal (h : e = f ∧ p.segments = q.segments) : p.relative e = q.relative f := by
      rw [h.1, Place.eq_of_segments h.2]
    refine ⟨⟨fun h => htells (h ▸ .refl _), hequal⟩, ⟨fun h => hequal (htells h), fun h => h ▸ .refl _⟩,
      fun dir habove => Place.not_sameSteps_of_above hp hq he hf hne habove⟩
  · intro o o' cache entry entry' p p' t t' h h'
    have htells := Stage.eq_of_sameSteps_entryPath h h'
    have hequal := Stage.entryPath_congr h h'
    exact ⟨⟨fun heq => htells (heq ▸ .refl _), fun hsame => hequal hsame.1 hsame.2⟩,
      fun hsame => hequal (htells hsame).1 (htells hsame).2, fun heq => heq ▸ .refl _⟩

/-- Two spellings of one name share an entry under one digest, and under two digests they do not.
The file of an object is not the directory of the package of the same name, and an extension with
a dot in it does not pass for a segment. -/
theorem paths_tell_segments_respelled :
    let p : Place := ⟨["a", "b"]⟩
    let q : Place := ⟨["a"]⟩
    let idle : Optimization := Train.optimization {}
    let program (byte : UInt8) : Program :=
      { name := "x", source := ⟨"x.eo"⟩, intermediate := ⟨"x.json"⟩,
        digest := some ⟨List.replicate 16 byte, List.length_replicate⟩ }
    (Place.ofName "..a.b" = .ok p ∧ Place.ofName "a." = .ok q ∧
      ¬ (q.relative "b.json").SameSteps (p.relative "json")) ∧
    (Path.Above ⟨"a"⟩ (p.relative "json") ∧ ¬ (q.relative "json").SameSteps ⟨"a"⟩) ∧
    (∃ entry, Stage.entryPath idle ⟨"c"⟩ (program 0) (.ofName ".a..b") = some entry ∧
      Stage.entryPath idle ⟨"c"⟩ (program 0) (.ofName "a.b.") = some entry) ∧
    ∃ entry entry', Stage.entryPath idle ⟨"c"⟩ (program 0) (.ofName "a.b") = some entry ∧
      Stage.entryPath idle ⟨"c"⟩ (program 1) (.ofName "a.b") = some entry' ∧
      ¬ entry.SameSteps entry' := by
  intro p q idle program
  obtain ⟨-, hfiles, hentries, -⟩ := paths_tell_segments
  have ha : Place.ofName "..a.b" = .ok p := by decide
  have hb : Place.ofName "a." = .ok q := by decide
  have habove : Path.Above ⟨"a"⟩ (p.relative "json") := .parent (by decide)
  obtain ⟨hequal, hsame, -⟩ := hfiles _ _ q p "b.json" "json" hb ha
    (by decide) (by decide) (by decide) (by decide)
  obtain ⟨-, -, hnone⟩ := hfiles _ _ q p "json" "json" hb ha
    (by decide) (by decide) (by decide) (by decide)
  refine ⟨⟨ha, hb, fun h => ?_⟩, ⟨habove, hnone _ habove⟩, ?_, ?_⟩
  · exact absurd (hequal.1 (hsame.1 h)).1 (by decide)
  · refine ⟨⟨"c/00000000000000000000000000000000/a/b.tree"⟩, by decide, ?_⟩
    have hfirst : Stage.entryPath idle ⟨"c"⟩ (program 0) (.ofName ".a..b") =
        some ⟨"c/00000000000000000000000000000000/a/b.tree"⟩ := by decide
    obtain ⟨entry', hsecond⟩ : ∃ entry',
        Stage.entryPath idle ⟨"c"⟩ (program 0) (.ofName "a.b.") = some entry' := ⟨_, rfl⟩
    rw [hsecond, (hentries _ _ _ _ _ _ _ _ _ hfirst hsecond).1.2 ⟨rfl, by decide⟩]
  · refine ⟨_, _, rfl, rfl, fun hsame => ?_⟩
    have hdigests := hentries idle idle ⟨"c"⟩ _ _ (program 0) (program 1) (.ofName "a.b")
      (.ofName "a.b") rfl rfl
    exact absurd (hdigests.1.1 (hdigests.2.1 hsame)).1 (by decide)

end Trainyard
