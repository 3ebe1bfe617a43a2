import Trainyard.Proofs.FileSystem.Opens
import Trainyard.Proofs.Memo.Beside
import Trainyard.Proofs.Stage.Batch
import Trainyard.Proofs.Stage.Bench

/-!
# The files of a program

A stage keeps three kinds of files for a program: outputs at its place, snapshots in the
directory of its place, and memo entries at its place below the directory of a digest.
Names of directories have no dot in them and names of files have one, so the files of
programs with different places are different, and none stands where another one needs a
directory.
-/

set_option autoImplicit false

namespace Trainyard

namespace Train

theorem stem_snapshotStem (position : Nat) (station : String) :
    Path.Stem (snapshotStem position station) := by
  refine ⟨fun h => ?_, fun h => (mem_snapshotStem h).1 rfl, fun h => (mem_snapshotStem h).2 rfl⟩
  have hdash : '-' ∈ (snapshotStem position station).toList := by simp [snapshotStem]
  rw [h] at hdash
  exact absurd hdash (by decide)

end Train

theorem Path.Stem.plain_append_ending {stem : String} (h : Path.Stem stem) (extension : String)
    (hne : extension ≠ "") (hslash : '/' ∉ extension.toList) :
    Path.Plain (stem ++ Place.ending extension) ∧
      '.' ∈ (stem ++ Place.ending extension).toList := by
  have hchars : (stem ++ Place.ending extension).toList = stem.toList ++ '.' :: extension.toList := by
    simp [Place.ending, hne]
  obtain ⟨c, cs, hcs⟩ : ∃ c cs, stem.toList = c :: cs :=
    List.exists_cons_of_ne_nil fun hnil => h.ne (String.toList_eq_nil_iff.1 hnil)
  have hhead : c ≠ '.' := by
    rintro rfl
    exact h.dot (by simp [hcs])
  refine ⟨⟨?_, ?_, ?_, ?_⟩, by simp [hchars]⟩
  · intro hempty
    simp [hempty] at hchars
  · rw [hchars]
    simp [h.slash, hslash]
  · intro hdot
    rw [hdot, hcs] at hchars
    exact hhead (List.cons.inj hchars).1.symm
  · intro hdots
    rw [hdots, hcs] at hchars
    exact hhead (List.cons.inj hchars).1.symm

def Program.Elsewhere (p q : Program) : Prop := ∀ place, p.place = .ok place → q.place ≠ .ok place

theorem Program.Elsewhere.symm {p q : Program} (h : p.Elsewhere q) : q.Elsewhere p :=
  fun place hq hp => h place hp hq

instance : Std.Symm Program.Elsewhere := ⟨fun _ _ => Program.Elsewhere.symm⟩

theorem Program.elsewhere_iff {p q : Program} :
    p.Elsewhere q ↔ p.place.toOption = none ∨ p.place.toOption ≠ q.place.toOption := by
  rw [Elsewhere]
  cases p.place with
  | error e => simp [Except.toOption]
  | ok place => cases q.place <;> simp [Except.toOption, eq_comm]

instance : DecidableRel Program.Elsewhere := fun _ _ => decidable_of_iff _ Program.elsewhere_iff.symm

namespace Stage

structure Scheme where
  -- below the target directory
  outputs : String
  extensions : List String
  snapshots : String
  stations : List String
  -- below the cache directory
  entries : String

namespace Scheme

structure Tidy (S : Scheme) : Prop where
  outputs : Path.Stem S.outputs
  snapshots : Path.Stem S.snapshots
  entries : Path.Stem S.entries
  extensions : ∀ e ∈ S.extensions, e ≠ "" ∧ '/' ∉ e.toList ∧ e ≠ "tree"

def files (S : Scheme) (l : Layout) (p : Program) : Files := fun base front name =>
  ∃ place before last, p.place = .ok place ∧ place.segments = before ++ [last] ∧
    ((∃ e ∈ S.extensions, base = l.target ∧ front = S.outputs :: before ∧
        name = last ++ Place.ending e) ∨
      (∃ i station, S.stations[i]? = some station ∧ base = l.target ∧
        front = S.snapshots :: place.segments ∧ name = Train.snapshotName (i + 1) station) ∨
      ∃ d ∈ p.digest, base = l.cache ∧ front = S.entries :: d.toHex :: before ∧
        name = last ++ Place.ending "tree")

/-- The outputs of the first program are where a snapshot of the second one goes. -/
def Clash (S : Scheme) (p q : Program) : Prop :=
  ∃ place other i station, p.place = .ok place ∧ q.place = .ok other ∧
    S.stations[i]? = some station ∧
    place.segments = other.segments ++ [Train.snapshotStem (i + 1) station]

variable {S : Scheme} {l : Layout} {p q : Program}

theorem clash_iff : S.Clash p q ↔ ∃ place ∈ p.place.toOption, ∃ other ∈ q.place.toOption,
    ∃ i ∈ List.range S.stations.length, ∃ station ∈ S.stations[i]?,
      place.segments = other.segments ++ [Train.snapshotStem (i + 1) station] := by
  have hok {p : Program} {place : Place} : place ∈ p.place.toOption ↔ p.place = .ok place := by
    cases p.place <;> simp [Except.toOption, eq_comm]
  simp only [hok, List.mem_range]
  constructor
  · rintro ⟨place, other, i, station, hplace, hother, hi, hsegments⟩
    exact ⟨place, hplace, other, hother, i, (List.getElem?_eq_some_iff.1 hi).1, station, hi, hsegments⟩
  · rintro ⟨place, hplace, other, hother, i, -, station, hi, hsegments⟩
    exact ⟨place, other, i, station, hplace, hother, hi, hsegments⟩

instance (S : Scheme) (p q : Program) : Decidable (S.Clash p q) := decidable_of_iff _ clash_iff.symm

theorem tidy_files (hS : S.Tidy) (l : Layout) (p : Program) : (S.files l p).Tidy := by
  have hcases {base : Path} {front : List String} {name : String} (h : S.files l p base front name) :
      front ≠ [] ∧ (∀ n ∈ front, Path.Stem n) ∧ Path.Plain name ∧ '.' ∈ name.toList := by
    obtain ⟨place, before, last, hplace, hsegments, h⟩ := h
    have hstems := (Place.proper_of_ofName hplace).stem
    have hall := hstems
    rw [hsegments, List.forall_mem_append, List.forall_mem_singleton] at hstems
    rcases h with ⟨e, he, rfl, rfl, rfl⟩ | ⟨i, station, -, rfl, rfl, rfl⟩ |
      ⟨d, hd, rfl, rfl, rfl⟩
    · obtain ⟨hne, hslash, -⟩ := hS.extensions e he
      exact ⟨by simp, List.forall_mem_cons.2 ⟨hS.outputs, hstems.1⟩,
        hstems.2.plain_append_ending e hne hslash⟩
    · exact ⟨by simp, List.forall_mem_cons.2 ⟨hS.snapshots, hall⟩,
        (Train.stem_snapshotStem (i + 1) station).plain_append_ending "json" (by decide) (by decide)⟩
    · exact ⟨by simp, List.forall_mem_cons.2 ⟨hS.entries, List.forall_mem_cons.2
        ⟨d.stem_toHex, hstems.1⟩⟩, hstems.2.plain_append_ending "tree" (by decide) (by decide)⟩
  exact ⟨fun _ _ _ h => (hcases h).1, fun _ _ _ h => (hcases h).2.1, fun _ _ _ h => (hcases h).2.2⟩

theorem snapshotName_eq_ending (position : Nat) (station : String) :
    Train.snapshotName position station =
      Train.snapshotStem position station ++ Place.ending "json" := rfl

/-- Programs of different places have no file in common, unless an output of one stands where a
snapshot of the other goes. -/
theorem files_ne (hS : S.Tidy) (hplaces : p.Elsewhere q)
    (hclash : S.outputs = S.snapshots → ¬ S.Clash p q ∧ ¬ S.Clash q p) {working : Key}
    {base base' : Path} {front front' : List String} {name name' : String}
    (h : S.files l p base front name) (h' : S.files l q base' front' name') :
    base.key working ++ front ++ [name] ≠ base'.key working ++ front' ++ [name'] := by
  intro heq
  obtain ⟨hfront, hname⟩ := List.append_inj' heq rfl
  have hname : name = name' := by simpa using hname
  obtain ⟨place, before, last, hplace, hsegments, h⟩ := h
  obtain ⟨place', before', last', hplace', hsegments', h'⟩ := h'
  have hlast : '.' ∉ last.toList := (Place.proper_of_ofName hplace).dot last (by simp [hsegments])
  have hlast' : '.' ∉ last'.toList :=
    (Place.proper_of_ofName hplace').dot last' (by simp [hsegments'])
  have hdot := fun (position : Nat) (station : String) =>
    (Train.stem_snapshotStem position station).dot
  have hsame : place.segments = place'.segments → False := by
    intro hsame
    have hequal : place = place' := by
      obtain ⟨segments⟩ := place
      rw [Place.mk.injEq]
      exact hsame
    exact hplaces place hplace (hequal ▸ hplace')
  have htree : "tree" ≠ "" := by decide
  have hjson : "json" ≠ "" := by decide
  rcases h with ⟨e, he, rfl, rfl, rfl⟩ | ⟨i, station, hi, rfl, rfl, rfl⟩ | ⟨d, hd, rfl, rfl, rfl⟩
  · obtain ⟨hne, -, hnotree⟩ := hS.extensions e he
    rcases h' with ⟨e', he', rfl, rfl, rfl⟩ | ⟨i, station, hi, rfl, rfl, rfl⟩ |
      ⟨d, hd, rfl, rfl, rfl⟩
    · obtain ⟨hstem, -⟩ := Place.eq_of_append_ending hname hlast hlast' hne (hS.extensions e' he').1
      rw [List.append_cancel_left_eq, List.cons.injEq] at hfront
      exact hsame (by rw [hsegments, hsegments', hfront.2, hstem])
    · rw [snapshotName_eq_ending] at hname
      obtain ⟨hstem, -⟩ := Place.eq_of_append_ending hname hlast (hdot _ _) hne hjson
      rw [List.append_cancel_left_eq, List.cons.injEq] at hfront
      refine (hclash hfront.1).1 ⟨place, place', i, station, hplace, hplace', hi, ?_⟩
      rw [hsegments, hfront.2, hstem]
    · exact hnotree (Place.eq_of_append_ending hname hlast hlast' hne htree).2
  · rw [snapshotName_eq_ending] at hname
    rcases h' with ⟨e', he', rfl, rfl, rfl⟩ | ⟨i', station', -, rfl, rfl, rfl⟩ |
      ⟨d, hd, rfl, rfl, rfl⟩
    · obtain ⟨hstem, -⟩ :=
        Place.eq_of_append_ending hname (hdot _ _) hlast' hjson (hS.extensions e' he').1
      rw [List.append_cancel_left_eq, List.cons.injEq] at hfront
      refine (hclash hfront.1.symm).2 ⟨place', place, i, station, hplace', hplace, hi, ?_⟩
      rw [hsegments', ← hfront.2, ← hstem]
    · rw [List.append_cancel_left_eq, List.cons.injEq] at hfront
      exact hsame hfront.2
    · have hextension := (Place.eq_of_append_ending hname (hdot _ _) hlast' hjson htree).2
      exact absurd hextension (by decide)
  · rcases h' with ⟨e', he', rfl, rfl, rfl⟩ | ⟨i', station', -, rfl, rfl, rfl⟩ |
      ⟨d', hd', rfl, rfl, rfl⟩
    · obtain ⟨hne, -, hnotree⟩ := hS.extensions e' he'
      exact hnotree (Place.eq_of_append_ending hname hlast hlast' htree hne).2.symm
    · rw [snapshotName_eq_ending] at hname
      have hextension := (Place.eq_of_append_ending hname hlast (hdot _ _) htree hjson).2
      exact absurd hextension (by decide)
    · obtain ⟨hstem, -⟩ := Place.eq_of_append_ending hname hlast hlast' htree htree
      rw [List.append_cancel_left_eq, List.cons.injEq, List.cons.injEq] at hfront
      exact hsame (by rw [hsegments, hsegments', hfront.2.2, hstem])

/-! ## Footprints -/

def footprint (S : Scheme) (l : Layout) (working : Key) (p : Program) (inputs : List Path) :
    Footprint :=
  .of working (S.files l p) fun k => ∃ input ∈ inputs, k ∈ input.way working

def Outside (S : Scheme) (l : Layout) (working : Key) (inputs : List Path) : Prop :=
  ∀ input ∈ inputs, ∀ k ∈ input.way working,
    ¬ l.target.key working ++ [S.outputs] <+: k ∧ ¬ l.target.key working ++ [S.snapshots] <+: k ∧
      ¬ l.cache.key working ++ [S.entries] <+: k

instance (S : Scheme) (l : Layout) (working : Key) (inputs : List Path) :
    Decidable (S.Outside l working inputs) :=
  inferInstanceAs (Decidable (∀ input ∈ inputs, ∀ k ∈ input.way working, _))

structure Prepared (fs : FileSystem) (l : Layout) (p : Program) : Prop where
  target : fs.Enters l.target
  cache : p.digest.isSome = true → fs.Enters l.cache

variable {working : Key} {inputs inputs' : List Path} {place : Place}

theorem Prepared.enters {fs : FileSystem} (h : Prepared fs l p) {base : Path}
    {front : List String} {name : String} (hfile : S.files l p base front name) :
    fs.Enters base := by
  obtain ⟨place, before, last, -, -, hfile⟩ := hfile
  rcases hfile with ⟨e, -, rfl, -⟩ | ⟨i, station, -, rfl, -⟩ | ⟨d, hd, rfl, -⟩
  · exact h.target
  · exact h.target
  · exact h.cache (by rw [Option.mem_def.1 hd]; rfl)

theorem Prepared.ready {fs : FileSystem} (h : Prepared fs l p) :
    (S.footprint l working p inputs).Ready fs :=
  fun _ ⟨_, _, hfile⟩ => h.enters hfile

theorem Prepared.beside {fs : FileSystem} (h : Prepared fs l p) :
    FileSystem.Beside (S.footprint l working p inputs) fs fs := .refl h.ready

/-- Making directories past the target directory makes no difference to a program without a
digest, nor does it where the program is made from something that is there. -/
theorem Prepared.beside_opens {fs fs' : FileSystem} (h : Prepared fs l p) (hdigest : p.digest = none)
    {keys : List Key} (hopens : FileSystem.Opens keys fs fs')
    (htarget : ∀ k ∈ keys, ¬ l.target.key fs.working <+: k)
    (hinputs : ∀ input ∈ inputs, ∀ k ∈ input.way fs.working, k ∈ keys → fs.item? k ≠ none) :
    FileSystem.Beside (S.footprint l fs.working p inputs) fs fs' := by
  refine ⟨hopens.toGrows, fun k hk => ?_, fun k _ => ?_, h.ready⟩
  · rcases hopens.marks k with hsame | ⟨-, hdir | ⟨hnone, hkeys⟩⟩
    · exact .inr hsame
    · exact .inl hdir
    · rcases hk with ⟨base, front, name, hfile, rfl⟩ | ⟨input, hinput, hk⟩
      · refine absurd ?_ (htarget _ hkeys)
        obtain ⟨place, before, last, -, -, hfile⟩ := hfile
        rcases hfile with ⟨e, -, rfl, -⟩ | ⟨i, station, -, rfl, -⟩ | ⟨d, hd, -⟩
        · exact ⟨_, (List.append_assoc _ _ _).symm⟩
        · exact ⟨_, (List.append_assoc _ _ _).symm⟩
        · simp [hdigest] at hd
      · exact absurd hnone (hinputs input hinput k hk hkeys)
  · rcases hopens.marks k with hsame | ⟨hmade, hdir | ⟨hnone, -⟩⟩
    · exact .inr (.inl hsame)
    · exact .inl hdir
    · exact .inr (.inr ⟨FileSystem.item?_eq_none.1 hnone, hmade⟩)

/-- The work on programs of different places stays apart. -/
theorem apart_footprint (hS : S.Tidy) {fs : FileSystem} (hq : Prepared fs l q)
    (hplaces : p.Elsewhere q)
    (hclash : S.outputs = S.snapshots → ¬ S.Clash p q ∧ ¬ S.Clash q p)
    (houtside : S.Outside l fs.working inputs) :
    FileSystem.Apart fs (S.footprint l fs.working p inputs) (S.footprint l fs.working q inputs') := by
  refine Footprint.apart_of (tidy_files hS l p) (tidy_files hS l q) ?_ ?_ ?_
  · intro base front name hfile
    exact (hq.enters hfile).directory
  · intro base front name base' front' name' hfile hfile'
    exact files_ne hS hplaces hclash hfile hfile'
  · rintro k ⟨input, hinput, hk⟩ base first rest name hfile
    obtain ⟨houtputs, hsnapshots, hentries⟩ := houtside input hinput k hk
    obtain ⟨place, before, last, -, -, hfile⟩ := hfile
    rcases hfile with ⟨e, -, rfl, hfront, -⟩ | ⟨i, station, -, rfl, hfront, -⟩ |
      ⟨d, -, rfl, hfront, -⟩
    · rw [(List.cons.inj hfront).1]
      exact houtputs
    · rw [(List.cons.inj hfront).1]
      exact hsnapshots
    · rw [(List.cons.inj hfront).1]
      exact hentries

theorem exists_last (hp : place.Proper) : ∃ before last, place.segments = before ++ [last] := by
  obtain ⟨before, last, hsegments⟩ := List.eq_nil_or_concat place.segments |>.resolve_left hp.nonempty
  exact ⟨before, last, by rw [hsegments, List.concat_eq_append]⟩

/-- Where snapshots go among the outputs, programs of different places share a file exactly if an
output of one is where a snapshot of the other goes. -/
theorem own_shared_iff (hS : S.Tidy) (hjson : "json" ∈ S.extensions)
    (hsame : S.outputs = S.snapshots) (hplaces : p.Elsewhere q) :
    (∃ k, (S.footprint l working p inputs).own k ∧ (S.footprint l working q inputs').own k) ↔
      S.Clash p q ∨ S.Clash q p := by
  constructor
  · rintro ⟨k, ⟨base, front, name, hfile, rfl⟩, ⟨base', front', name', hfile', heq⟩⟩
    by_contra hnone
    rw [not_or] at hnone
    exact files_ne hS hplaces (fun _ => hnone) hfile hfile' heq
  · -- the first program has an output where the second one has a snapshot
    have hshared {p q : Program} (h : S.Clash p q) : ∃ base front name,
        S.files l p base front name ∧ S.files l q base front name := by
      obtain ⟨place, other, i, station, hplace, hother, hi, hsegments⟩ := h
      obtain ⟨before, last, hlast⟩ := exists_last (Place.proper_of_ofName hother)
      refine ⟨l.target, S.outputs :: other.segments, Train.snapshotName (i + 1) station, ?_, ?_⟩
      · exact ⟨place, other.segments, _, hplace, hsegments, .inl ⟨"json", hjson, rfl, rfl, rfl⟩⟩
      · exact ⟨other, before, last, hother, hlast, .inr (.inl ⟨i, station, hi, rfl, by rw [hsame], rfl⟩)⟩
    rintro (h | h)
    · obtain ⟨base, front, name, hp, hq⟩ := hshared h
      exact ⟨_, ⟨base, front, name, hp, rfl⟩, ⟨base, front, name, hq, rfl⟩⟩
    · obtain ⟨base, front, name, hq, hp⟩ := hshared h
      exact ⟨_, ⟨base, front, name, hp, rfl⟩, ⟨base, front, name, hq, rfl⟩⟩

theorem within_descend (hp : place.Proper) {before : List String} {last : String}
    (hsegments : place.segments = before ++ [last]) (base : Path) (names : List String)
    {extension : String} (hslash : '/' ∉ extension.toList) : place.within (base.descend names) extension =
      base.descend (names ++ before ++ [last ++ Place.ending extension]) := by
  rw [Place.within_eq_descend hp hslash, hsegments, Place.componentsOf_append, Path.descend_descend,
    List.append_assoc]

theorem covers_outputs (hS : S.Tidy) (hplace : p.place = .ok place) : ∃ front stem, ∀ e ∈ S.extensions,
    place.within (l.target.child S.outputs) e =
        l.target.descend (front ++ [stem ++ Place.ending e]) ∧
      (S.footprint l working p inputs).Covers working l.target front (stem ++ Place.ending e) := by
  have hp := Place.proper_of_ofName hplace
  obtain ⟨before, last, hsegments⟩ := exists_last hp
  refine ⟨S.outputs :: before, last, fun e he => ⟨?_, Footprint.covers_of (tidy_files hS l p) ?_⟩⟩
  · exact within_descend hp hsegments l.target [S.outputs] (hS.extensions e he).2.1
  · exact ⟨place, before, last, hplace, hsegments, .inl ⟨e, he, rfl, rfl, rfl⟩⟩

theorem takes_snapshots (hS : S.Tidy) (hplace : p.place = .ok place) :
    Train.Takes (S.footprint l working p inputs) working (some (l.target.child S.snapshots))
      S.stations place := by
  have hp := Place.proper_of_ofName hplace
  obtain ⟨before, last, hsegments⟩ := exists_last hp
  intro dir hdir
  cases hdir
  refine ⟨l.target, S.snapshots :: place.segments, ?_, fun i station hi =>
    Footprint.covers_of (tidy_files hS l p) ?_⟩
  · have hslash : '/' ∉ "".toList := by decide
    have hwithin := within_descend hp hsegments l.target [S.snapshots] hslash
    rw [show Place.ending "" = "" from rfl, String.append_empty, List.append_assoc, ← hsegments]
      at hwithin
    exact hwithin
  · exact ⟨place, before, last, hplace, hsegments, .inr (.inl ⟨i, station, hi, rfl, rfl, rfl⟩)⟩

theorem takes_entry (hS : S.Tidy) (hplace : p.place = .ok place) {d : Digest} (hd : d ∈ p.digest) :
    Memo.Takes (S.footprint l working p inputs) working ((l.cache.child S.entries).child d.toHex)
      place := by
  have hp := Place.proper_of_ofName hplace
  obtain ⟨before, last, hsegments⟩ := exists_last hp
  refine ⟨l.cache, S.entries :: d.toHex :: before, last ++ Place.ending "tree", ?_,
    Footprint.covers_of (tidy_files hS l p) ?_⟩
  · exact within_descend hp hsegments l.cache [S.entries, d.toHex] (by decide)
  · exact ⟨place, before, last, hplace, hsegments, .inr (.inr ⟨d, hd, rfl, rfl, rfl⟩)⟩

end Scheme

end Stage

end Trainyard
