import Trainyard.Proofs.Train.Observed

/-!
# Snapshots are complete

A train with snapshots leaves one file for every station that succeeds: the tree after that
station, below the directory of its place. The number of the station heads the name of the file, so
no snapshot takes the place of another, however stations are called and whatever name a tree has
on its way. All other files stay as they are.
-/

set_option autoImplicit false

namespace Trainyard.Train

/-! ## Names -/

def numberOf (name : String) : Nat :=
  Nat.ofDigitChars 10 (name.toList.takeWhile Char.isDigit) 0

/-- Zeros in front and what follows the first dash leave the number of a snapshot as it is. -/
theorem numberOf_snapshotName (position : Nat) (station : String) :
    numberOf (snapshotName position station) = position := by
  have hdigits : ∀ c ∈ List.replicate (3 - (Nat.toDigits 10 position).length) '0' ++
      Nat.toDigits 10 position, c.isDigit = true := by
    intro c hc
    rcases List.mem_append.1 hc with hzero | hdigit
    · rw [List.eq_of_mem_replicate hzero]
      decide
    · exact Nat.isDigit_of_mem_toDigits (by decide) (by decide) hdigit
  have hname : (snapshotName position station).toList =
      List.replicate (3 - (Nat.toDigits 10 position).length) '0' ++ Nat.toDigits 10 position ++
        '-' :: (fileSafe station ++ ".json").toList := by
    simp [snapshotName, padded]
  rw [numberOf, hname, List.takeWhile_append_of_pos hdigits, List.takeWhile_cons_of_neg (by decide),
    List.append_nil, Nat.ofDigitChars_append, Nat.ofDigitChars_replicate_zero, Nat.mul_zero,
    Nat.ofDigitChars_ten_toDigits]

theorem key_snapshotPath (working : Key) (dir : Path) {place : Place} (hp : place.Proper)
    (position : Nat) (station : String) : (snapshotPath dir place position station).key working =
      dir.key working ++ place.segments ++ [snapshotName position station] :=
  snapshotKey_eq working dir hp position station

/-- A file is the snapshot of one station only. -/
theorem position_eq_of_key {working : Key} {dir : Path} {place place' : Place} (hp : place.Proper)
    (hp' : place'.Proper) {position position' : Nat} {station station' : String}
    (h : (snapshotPath dir place position station).key working =
      (snapshotPath dir place' position' station').key working) : position = position' := by
  rw [key_snapshotPath working dir hp, key_snapshotPath working dir hp'] at h
  have hname := List.singleton_inj.1 (List.append_inj' h (by simp)).2
  rw [← numberOf_snapshotName position station, hname, numberOf_snapshotName]

/-! ## The trees along the way -/

def along : List Station → Tree → List Tree
  | [], _ => []
  | station :: stations, t =>
    match station.pass t with
    | .error _ => []
    | .ok t' => t' :: along stations t'

section Along

variable {station : Station} {stations : List Station} {t t' : Tree}

theorem along_of_fails {failure : StructuralFailure} (h : station.pass t = .error failure) :
    along (station :: stations) t = [] := by
  rw [along, h]

theorem along_of_pass (h : station.pass t = .ok t') :
    along (station :: stations) t = t' :: along stations t' := by
  rw [along, h]

end Along

theorem getElem?_along {stations : List Station} {t u : Tree} {i : Nat} :
    (along stations t)[i]? = some u ↔
      i < stations.length ∧ passed (stations.take (i + 1)) t = .ok u := by
  induction stations generalizing t i with
  | nil => simp [along]
  | cons station stations ih =>
    rw [along, List.take_succ_cons, passed]
    cases station.pass t with
    | error failure => simp
    | ok t' =>
      cases i with
      | zero => simp [passed]
      | succ i => simpa using ih

/-! ## The files -/

/-- Where the snapshots of a run belong, one for each station that succeeds. -/
inductive Filed (dir : Path) : Nat → List Station → Tree → List Path → Prop
  | nil (first : Nat) (t : Tree) : Filed dir first [] t []
  | stopped {first : Nat} {station : Station} {stations : List Station} {t : Tree}
      {failure : StructuralFailure} (hpass : station.pass t = .error failure) :
      Filed dir first (station :: stations) t []
  | saved {first : Nat} {station : Station} {stations : List Station} {t t' : Tree}
      {place : Place} {paths : List Path} (hpass : station.pass t = .ok t')
      (hplace : t'.place = .ok place) (hrest : Filed dir (first + 1) stations t' paths) :
      Filed dir first (station :: stations) t
        (snapshotPath dir place first station.name :: paths)

section Files

variable {dir : Path} {first : Nat} {stations : List Station} {t : Tree} {paths : List Path}

theorem Filed.length_eq (h : Filed dir first stations t paths) :
    paths.length = (along stations t).length := by
  induction h with
  | nil => rfl
  | stopped hpass =>
    rw [along_of_fails hpass]
    rfl
  | saved hpass _ _ ih => rw [along_of_pass hpass, List.length_cons, List.length_cons, ih]

theorem Filed.getElem? (h : Filed dir first stations t paths) {i : Nat} {u : Tree}
    (hi : (along stations t)[i]? = some u) : ∃ place name, u.place = .ok place ∧
      (stations.map Station.name)[i]? = some name ∧
      paths[i]? = some (snapshotPath dir place (first + i) name) := by
  induction h generalizing i with
  | nil => simp [along] at hi
  | stopped hpass => simp [along_of_fails hpass] at hi
  | @saved first station _ _ _ place _ hpass hplace _ ih =>
    rw [along_of_pass hpass] at hi
    cases i with
    | zero =>
      cases hi
      exact ⟨place, station.name, hplace, rfl, rfl⟩
    | succ i =>
      obtain ⟨place, name, hplace, hname, hpath⟩ := ih hi
      rw [Nat.add_assoc, Nat.add_comm 1] at hpath
      exact ⟨place, name, hplace, hname, hpath⟩

theorem Filed.mem (h : Filed dir first stations t paths) {p : Path} (hp : p ∈ paths) :
    ∃ place position station, place.Proper ∧ first ≤ position ∧
      p = snapshotPath dir place position station := by
  induction h with
  | nil => cases hp
  | stopped => cases hp
  | @saved first station _ _ _ place _ _ hplace _ ih =>
    rcases List.mem_cons.1 hp with hhere | hlater
    · exact ⟨place, first, station.name, Place.proper_of_ofName hplace, Nat.le_refl first, hhere⟩
    · obtain ⟨place, position, station, hproper, hle, hp⟩ := ih hlater
      exact ⟨place, position, station, hproper, Nat.le_of_succ_le hle, hp⟩

theorem Filed.key_not_mem {place : Place} (hp : place.Proper) (station : String)
    (h : Filed dir (first + 1) stations t paths) (working : Key) :
    (snapshotPath dir place first station).key working ∉ paths.map (·.key working) := by
  intro hmem
  obtain ⟨p, hpath, hkey⟩ := List.mem_map.1 hmem
  obtain ⟨place', position, station', hp', hle, hlater⟩ := h.mem hpath
  rw [hlater] at hkey
  exact absurd (position_eq_of_key hp hp' hkey.symm) (Nat.ne_of_lt hle)

theorem Filed.nodup (h : Filed dir first stations t paths) (working : Key) :
    (paths.map (·.key working)).Nodup := by
  induction h with
  | nil => exact List.nodup_nil
  | stopped => exact List.nodup_nil
  | saved _ hplace hrest ih =>
    exact List.nodup_cons.2 ⟨hrest.key_not_mem (Place.proper_of_ofName hplace) _ working, ih⟩

/-- Where no save fails, every snapshot stays as it was saved, and nothing else is written. -/
theorem exists_filed {s : Site} (hsaved : ∀ j e, ¬ SaveFails dir first stations t s j e) :
    ∃ paths, Filed dir first stations t paths ∧
      s.files.Evolves (fun k _ => k ∈ paths.map (·.key s.files.working))
        ((run (some dir) first stations t).on s).2.files ∧
      ∀ (i : Nat) (p : Path) (u : Tree), paths[i]? = some p →
        (along stations t)[i]? = some u → ((run (some dir) first stations t).on s).2.files.stat p =
          .ok (.file u.render.toUTF8 s.files.now) := by
  induction stations generalizing first t s with
  | nil => exact ⟨[], .nil first t, .refl _ _, by simp⟩
  | cons station stations ih =>
    obtain ⟨x, s₂, houtcome, hrun⟩ := exists_outcome dir first station t s
    cases houtcome with
    | stopped hpass hfiles =>
      rw [hrun, hfiles]
      exact ⟨[], .stopped hpass, .refl _ _, by simp⟩
    | unsaved hpass hfails => exact absurd (.here hpass hfails) (hsaved first _)
    | @saved t' place s₁ _ hpass hplace hsave hfiles =>
      have hgoes (stations : List Station) : (run (some dir) first (station :: stations) t).on s =
          (run (some dir) (first + 1) stations t').on s₂ := hrun stations
      obtain ⟨paths, hfiled, hlater, hkept⟩ := ih fun j e h => hsaved j e (.later hgoes h)
      have hfirst := Tree.evolves_on_save t' (snapshotPath dir place first station.name) s
      have hstat := Tree.on_save_ok hsave
      rw [hsave] at hfirst
      rw [← hfiles] at hfirst hstat
      rw [hfirst.working] at hlater
      rw [hfirst.now] at hkept
      rw [hgoes, along_of_pass hpass]
      refine ⟨_, .saved hpass hplace hfiled, ?_, ?_⟩
      · simp only [List.map_cons, List.mem_cons]
        exact (hfirst.mono fun _ _ h => .inl h.1).trans (hlater.mono fun _ _ => .inr)
      -- What comes later bears other numbers, so the first snapshot is not written again.
      · have hnew := hfiled.key_not_mem (Place.proper_of_ofName hplace) station.name s.files.working
        rw [← hfirst.working] at hnew hlater
        have hlasts := hlater.stat_file (fun _ => hnew) hstat
        intro i p u hp hu
        cases i with
        | zero =>
          rw [List.getElem?_cons_zero, Option.some.injEq] at hp hu
          rw [← hp, ← hu, hlasts]
        | succ i =>
          rw [List.getElem?_cons_succ] at hp hu
          exact hkept i p u hp hu

/-- Where no save fails, a train leaves the tree after every station that succeeds in a file of its
own, and touches no other file. -/
theorem every_snapshot_is_kept (tr : Train) (dir : Path) (t : Tree) (s : Site)
    (hsaved : ∀ j e, ¬ SaveFails dir 1 tr.stations t s j e) :
    let files := (((tr.withSnapshots dir).optimization.apply t).on s).2.files
    let trees := along tr.stations t
    (∀ i u, trees[i]? = some u ↔
        i < tr.stations.length ∧ passed (tr.stations.take (i + 1)) t = .ok u) ∧
      ∃ paths : List Path, paths.length = trees.length ∧
        (paths.map (·.key s.files.working)).Nodup ∧
        (∀ i u, trees[i]? = some u → ∃ place name path,
          Place.ofName (u.name?.getD "_anonymous") = .ok place ∧ tr.stationNames[i]? = some name ∧
          path = (place.within dir "").child
            (padded (i + 1) ++ "-" ++ fileSafe name ++ ".json") ∧
          paths[i]? = some path ∧ files.stat path = .ok (.file u.render.toUTF8 s.files.now)) ∧
        ∀ key, key ∉ paths.map (·.key s.files.working) → ∀ content time,
          files.item? key = some (.file content time) ↔
            s.files.item? key = some (.file content time) := by
  intro files trees
  obtain ⟨paths, hfiled, hevolves, hkept⟩ := exists_filed hsaved
  rw [← apply_withSnapshots] at hevolves hkept
  refine ⟨fun i u => getElem?_along, paths, hfiled.length_eq, hfiled.nodup s.files.working,
    fun i u hi => ?_, fun key hkey content time => ⟨fun hfile => ?_, fun hfile => ?_⟩⟩
  · obtain ⟨place, name, hplace, hname, hpath⟩ := hfiled.getElem? hi
    rw [Nat.add_comm] at hpath
    exact ⟨place, name, _, hplace, hname, rfl, hpath, hkept i _ u hpath hi⟩
  · rcases hevolves.file_cases hfile with hsame | ⟨hwritten, -⟩
    · exact hsame
    · exact absurd hwritten hkey
  · exact hevolves.file_of_not_writes (fun _ => hkey) hfile

/-- Two steps share a name that is not safe for files, and the second takes the name of the tree
away. -/
theorem every_snapshot_is_kept_renamed :
    let tr : Train := ⟨[⟨"a/b", fun _ => .ok (.ofName "x.y")⟩, ⟨"a/b", fun _ => .ok .empty⟩],
      [⟨.error⟩], none⟩
    let s : Site := { files := .fresh ["work"] }
    let files :=
      (((tr.withSnapshots ⟨"steps"⟩).optimization.apply (.ofName "m")).on s).2.files
    (∀ j e, ¬ SaveFails ⟨"steps"⟩ 1 tr.stations (.ofName "m") s j e) ∧
      files.stat ⟨"steps/x/y/001-a-b.json"⟩ =
        .ok (.file (Tree.ofName "x.y").render.toUTF8 s.files.now) ∧
      files.stat ⟨"steps/_anonymous/002-a-b.json"⟩ =
        .ok (.file Tree.empty.render.toUTF8 s.files.now) ∧
      files.stat ⟨"steps/_anonymous/003-fail-on-errors.json"⟩ =
        .ok (.file Tree.empty.render.toUTF8 s.files.now) := by
  intro tr s files
  have hanswer : ((run (some ⟨"steps"⟩) 1 tr.stations (.ofName "m")).on s).1.toOption =
      some Tree.empty := by decide +kernel
  have hsaved (j : Nat) (e : WorkError) :
      ¬ SaveFails ⟨"steps"⟩ 1 tr.stations (.ofName "m") s j e := by
    intro hfails
    rw [fst_on_run_of_saveFails hfails] at hanswer
    cases hanswer
  obtain ⟨-, paths, -, -, hkept, -⟩ := every_snapshot_is_kept tr ⟨"steps"⟩ (.ofName "m") s hsaved
  have hfile (i : Nat) (u : Tree) (place : Place) (name : String) (path : Path)
      (hi : (along tr.stations (.ofName "m"))[i]? = some u)
      (hplace : Place.ofName (u.name?.getD "_anonymous") = .ok place)
      (hname : tr.stationNames[i]? = some name)
      (hpath : (place.within ⟨"steps"⟩ "").child
        (padded (i + 1) ++ "-" ++ fileSafe name ++ ".json") = path) :
      files.stat path = .ok (.file u.render.toUTF8 s.files.now) := by
    obtain ⟨place', name', path', hplace', hname', hpath', -, hstat⟩ := hkept i u hi
    cases hplace'.symm.trans hplace
    cases hname'.symm.trans hname
    rwa [hpath', hpath] at hstat
  refine ⟨hsaved, ?_, ?_, ?_⟩
  · exact hfile 0 _ ⟨["x", "y"]⟩ "a/b" _ rfl rfl rfl (by decide)
  · exact hfile 1 _ ⟨["_anonymous"]⟩ "a/b" _ rfl rfl rfl (by decide)
  · exact hfile 2 _ ⟨["_anonymous"]⟩ "fail-on-errors" _ rfl rfl rfl (by decide)

end Files

end Trainyard.Train
