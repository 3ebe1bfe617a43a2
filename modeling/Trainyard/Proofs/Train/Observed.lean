import Trainyard.Proofs.Train.Course

/-!
# Snapshots only observe

A train that takes snapshots sends a tree through the same stations as one that takes none, and
saves it in between. A save that fails ends the run with an error of its own; otherwise the answer
is that of the train without snapshots. The stations are numbered from one in the order of their
names, first the steps and then, going on with the count, the gates.
-/

set_option autoImplicit false

namespace Trainyard

/-! ## What is told of snapshots -/

def Event.snapshot? : Event → Option (String × Nat)
  | .snapshotSaved position station _ => some (station, position)
  | _ => none

namespace Site

def Tells (s : Site) (numbered : List (String × Nat)) (s' : Site) : Prop :=
  ∃ events, s'.journal.toList = s.journal.toList ++ events ∧
    events.filterMap Event.snapshot? = numbered

variable {s s₁ s₂ : Site} {numbered others : List (String × Nat)}

theorem tells_of_journal (h : s₁.journal = s.journal) : s.Tells [] s₁ := ⟨[], by simp [h], rfl⟩

theorem Tells.append (h : s.Tells numbered s₁) (h' : s₁.Tells others s₂) :
    s.Tells (numbered ++ others) s₂ := by
  obtain ⟨events, hjournal, hnumbered⟩ := h
  obtain ⟨events', hjournal', hothers⟩ := h'
  refine ⟨events ++ events', ?_, ?_⟩
  · rw [hjournal', hjournal, List.append_assoc]
  · rw [List.filterMap_append, hnumbered, hothers]

end Site

namespace Train

def stations (tr : Train) : List Station := tr.contentStations ++ tr.gateStations

/-! ## Saving a snapshot -/

def snapshotPath (dir : Path) (place : Place) (position : Nat) (station : String) : Path :=
  (place.within dir "").child (snapshotName position station)

inductive SnapshotFails (dir : Path) (position : Nat) (station : String) (t : Tree) (s : Site) :
    WorkError → Prop
  | place {cause : PlaceError} (hplace : t.place = .error cause) :
      SnapshotFails dir position station t s (.place cause)
  | tree {place : Place} {cause : TreeError} (hplace : t.place = .ok place)
      (hsave : ((t.save (snapshotPath dir place position station)).on s).1 = .error cause) :
      SnapshotFails dir position station t s (.tree cause)

section Save

variable {dir : Path} {position : Nat} {station : String} {t : Tree} {s s' : Site} {e : WorkError}

theorem on_saveSnapshot_of_no_place {cause : PlaceError} (hplace : t.place = .error cause) :
    (saveSnapshot (some dir) position station t).on s = (.error (.place cause), s) := by
  rw [saveSnapshot, Job.on_bind, Job.on_ofExcept, hplace, mapError_error]

theorem on_saveSnapshot (h : s'.files = s.files) {place : Place} (hplace : t.place = .ok place) :
    (saveSnapshot (some dir) position station t).on s' =
      match (t.save (snapshotPath dir place position station)).on s with
      | (.error cause, s₁) => (.error (.tree cause), { s' with files := s₁.files })
      | (.ok _, s₁) => (.ok (), { s' with
          files := s₁.files
          journal := s'.journal.push
            (.snapshotSaved position station (snapshotPath dir place position station)) }) := by
  have hsave := Tree.onFiles_save t (snapshotPath dir place position station) s s' h
  rw [saveSnapshot, Job.on_bind, Job.on_ofExcept, hplace]
  simp only [mapError_ok, Job.on_bind, Job.on_adapt]
  rw [← snapshotPath, hsave]
  rcases (t.save (snapshotPath dir place position station)).on s with ⟨x, s₁⟩
  cases x <;> rfl

theorem SnapshotFails.fst_on (hfails : SnapshotFails dir position station t s e)
    (h : s'.files = s.files) :
    ((saveSnapshot (some dir) position station t).on s').1 = .error e := by
  cases hfails with
  | place hplace => rw [on_saveSnapshot_of_no_place hplace]
  | tree hplace hsave => rw [on_saveSnapshot h hplace, Job.on_of_fst hsave]

theorem saveSnapshot_cases (dir : Path) (position : Nat) (station : String) (t : Tree)
    (h : s'.files = s.files) :
    (∃ e s₁, SnapshotFails dir position station t s e ∧ s₁.journal = s'.journal ∧
      (saveSnapshot (some dir) position station t).on s' = (.error e, s₁)) ∨
    ∃ place s₁ s₂, t.place = .ok place ∧
      (t.save (snapshotPath dir place position station)).on s = (.ok (), s₁) ∧
      s₂.files = s₁.files ∧ s'.Tells [(station, position)] s₂ ∧
      (saveSnapshot (some dir) position station t).on s' = (.ok (), s₂) := by
  cases hplace : t.place with
  | error cause =>
    exact .inl ⟨_, s', .place hplace, rfl, on_saveSnapshot_of_no_place hplace⟩
  | ok place =>
    rw [on_saveSnapshot h hplace]
    rcases hsave : (t.save (snapshotPath dir place position station)).on s with ⟨x, s₁⟩
    cases x with
    | error cause =>
      refine .inl ⟨_, { s' with files := s₁.files }, .tree hplace ?_, rfl, rfl⟩
      rw [hsave]
    | ok u =>
      refine .inr ⟨place, s₁, _, rfl, hsave, ?_, ?_, rfl⟩
      · rfl
      · exact ⟨[_], Array.toList_push, rfl⟩

end Save

/-! ## One station -/

theorem Ran.tells {stations : List Station} {s s₁ : Site} (h : Ran stations s s₁) :
    s.Tells [] s₁ := by
  obtain ⟨trees, -, hjournal⟩ := h.journal
  refine ⟨_, hjournal, List.filterMap_eq_nil_iff.2 fun e he => ?_⟩
  rw [← List.map_uncurry_zip_eq_zipWith] at he
  obtain ⟨arrival, -, rfl⟩ := List.mem_map.1 he
  rfl

inductive Outcome (dir : Path) (position : Nat) (station : Station) (t : Tree) (s : Site) :
    Except WorkError Tree → Site → Prop
  | stopped {failure : StructuralFailure} {s₁ : Site} (hpass : station.pass t = .error failure)
      (hfiles : s₁.files = s.files) (htells : s.Tells [] s₁) :
      Outcome dir position station t s (.error (.structural failure)) s₁
  | unsaved {t' : Tree} {e : WorkError} {s₁ : Site} (hpass : station.pass t = .ok t')
      (hfails : SnapshotFails dir position station.name t' s e) (htells : s.Tells [] s₁) :
      Outcome dir position station t s (.error e) s₁
  | saved {t' : Tree} {place : Place} {s₁ s₂ : Site} (hpass : station.pass t = .ok t')
      (hplace : t'.place = .ok place)
      (hsave : (t'.save (snapshotPath dir place position station.name)).on s = (.ok (), s₁))
      (hfiles : s₂.files = s₁.files) (htells : s.Tells [(station.name, position)] s₂) :
      Outcome dir position station t s (.ok t') s₂

/-- What comes after a station starts from its outcome. -/
theorem exists_outcome (dir : Path) (position : Nat) (station : Station) (t : Tree) (s : Site) :
    ∃ x s₁, Outcome dir position station t s x s₁ ∧
      ∀ stations, (run (some dir) position (station :: stations) t).on s =
        match x with
        | .error e => (.error e, s₁)
        | .ok t' => (run (some dir) (position + 1) stations t').on s₁ := by
  obtain ⟨s₁, hannounce, hran⟩ := ran_announce station t s
  have hquiet := hran.tells
  simp only [run, Job.on_bind, hannounce, Job.on_ofExcept]
  cases hpass : station.pass t with
  | error failure => exact ⟨_, s₁, .stopped hpass hran.files hquiet, fun _ => rfl⟩
  | ok t' =>
    rcases saveSnapshot_cases dir position station.name t' hran.files with
      ⟨e, s₂, hfails, hjournal, hon⟩ | ⟨place, s₂, s₃, hplace, hsave, hfiles, htells, hon⟩
    · refine ⟨_, s₂, .unsaved hpass hfails (hquiet.append (Site.tells_of_journal hjournal)), ?_⟩
      intro stations
      simp only [mapError_ok, hon]
    · refine ⟨_, s₃, .saved hpass hplace hsave hfiles (hquiet.append htells), ?_⟩
      intro stations
      simp only [mapError_ok, hon]

/-! ## A whole run -/

def StopsAt (stations : List Station) (t : Tree) (k : Nat) (failure : StructuralFailure) : Prop :=
  ∃ before station after u, stations = before ++ station :: after ∧ k = before.length + 1 ∧
    passed before t = .ok u ∧ station.pass u = .error failure

/-- The snapshot after the station of this number cannot be saved. The station succeeds, and all
went well at those before it. -/
def SaveFails (dir : Path) (first : Nat) (stations : List Station) (t : Tree) (s : Site) (j : Nat)
    (e : WorkError) : Prop :=
  ∃ before station after u v s₁, stations = before ++ station :: after ∧
    j = first + before.length ∧ (run (some dir) first before t).on s = (.ok u, s₁) ∧
    station.pass u = .ok v ∧ SnapshotFails dir j station.name v s₁ e

section Whole

variable {dir : Path} {first j k : Nat} {station : Station} {stations : List Station} {t : Tree}
  {s : Site} {e : WorkError} {failure : StructuralFailure}

theorem passed_of_stopsAt (h : StopsAt stations t k failure) :
    passed stations t = .error failure := by
  obtain ⟨before, station, after, u, rfl, -, hbefore, hfails⟩ := h
  exact (passed_of_fails after hbefore hfails).1

theorem exists_stopsAt (h : passed stations t = .error failure) :
    ∃ k, k ≤ stations.length ∧ StopsAt stations t k failure := by
  induction stations generalizing t with
  | nil => simp [passed] at h
  | cons station stations ih =>
    rw [passed] at h
    cases hpass : station.pass t with
    | error cause =>
      rw [hpass] at h
      cases h
      exact ⟨1, by simp, [], station, stations, t, rfl, rfl, rfl, hpass⟩
    | ok t' =>
      rw [hpass] at h
      obtain ⟨k, hle, before, last, after, u, rfl, rfl, hbefore, hfails⟩ := ih h
      refine ⟨_, Nat.succ_le_succ hle, station :: before, last, after, u, rfl, rfl, ?_, hfails⟩
      rw [passed, hpass]
      exact hbefore

theorem lt_of_saveFails (hsave : SaveFails dir 1 stations t s j e)
    (hstops : StopsAt stations t k failure) : j < k := by
  obtain ⟨before, station, after, u, v, s₁, hsplit, rfl, hbefore, hpass, -⟩ := hsave
  obtain ⟨before', station', after', u', hsplit', rfl, hbefore', hfails⟩ := hstops
  apply Nat.lt_of_not_le
  intro hle
  -- The station that stops the tree would be among those that it has passed.
  have hwhole : before ++ [station] <+: stations := ⟨after, by simp [hsplit]⟩
  have hwhole' : before' ++ [station'] <+: stations := ⟨after', by simp [hsplit']⟩
  obtain ⟨rest, hrest⟩ := List.prefix_of_prefix_length_le hwhole' hwhole (by simp; omega)
  have hpassed : passed (before ++ [station]) t = .ok v := by
    rw [(append_of_passed [station] (passed_of_on_run hbefore)).1, passed, hpass]
    rfl
  have hstopped := (passed_of_fails rest hbefore' hfails).1
  rw [List.append_cons, hrest, hpassed] at hstopped
  cases hstopped

theorem run_append (snapshots : Option Path) (first : Nat) (before after : List Station)
    (t : Tree) : run snapshots first (before ++ after) t =
      run snapshots first before t >>= run snapshots (first + before.length) after := by
  induction before generalizing first t with
  | nil => simp [run]
  | cons station before ih =>
    simp only [List.cons_append, run, ih, bind_assoc, List.length_cons, Nat.add_assoc,
      Nat.add_comm 1]

/-- Both phases together are one run, numbered from one. -/
theorem apply_eq_run (tr : Train) (t : Tree) :
    tr.optimization.apply t = run tr.snapshots 1 tr.stations t := by
  rw [stations, run_append, Nat.add_comm, contentStations, List.length_map]
  rfl

theorem SaveFails.here {t' : Tree} (hpass : station.pass t = .ok t')
    (h : SnapshotFails dir first station.name t' s e) :
    SaveFails dir first (station :: stations) t s first e :=
  ⟨[], station, stations, t, t', s, rfl, rfl, rfl, hpass, h⟩

theorem SaveFails.later {t' : Tree} {s₁ : Site}
    (hrun : ∀ stations, (run (some dir) first (station :: stations) t).on s =
      (run (some dir) (first + 1) stations t').on s₁)
    (h : SaveFails dir (first + 1) stations t' s₁ j e) :
    SaveFails dir first (station :: stations) t s j e := by
  obtain ⟨before, last, after, u, v, s₂, rfl, rfl, hbefore, hlast, hfails⟩ := h
  refine ⟨station :: before, last, after, u, v, s₂, rfl, ?_, ?_, hlast, hfails⟩
  · rw [List.length_cons, Nat.add_right_comm, Nat.add_assoc]
  · rw [hrun, hbefore]

theorem fst_on_run_of_saveFails (h : SaveFails dir first stations t s j e) :
    ((run (some dir) first stations t).on s).1 = .error e := by
  obtain ⟨before, station, after, u, v, s₁, rfl, rfl, hbefore, hpass, hfails⟩ := h
  obtain ⟨s₂, hfiles, hrun⟩ := on_run_cons (some dir) (first + before.length) station after u s₁
  rw [run_append, Job.on_bind, hbefore]
  simp only [hrun, hpass, Job.on_bind]
  rw [Job.on_of_fst (hfails.fst_on hfiles)]

theorem fst_on_run_of_saved (h : ∀ j e, ¬ SaveFails dir first stations t s j e) :
    ((run (some dir) first stations t).on s).1 = (passed stations t).mapError .structural := by
  induction stations generalizing first t s with
  | nil => rfl
  | cons station stations ih =>
    obtain ⟨x, s₁, houtcome, hrun⟩ := exists_outcome dir first station t s
    rw [hrun, passed]
    cases houtcome with
    | stopped hpass => rw [hpass, mapError_error]
    | unsaved hpass hfails => exact absurd (.here hpass hfails) (h first _)
    | saved hpass =>
      rw [hpass]
      exact ih fun j e hlater => h j e (.later hrun hlater)

/-- The work on a tree tells the snapshots of these stations with their numbers, in order, up to
where it ends. -/
def Numbers (job : Job WorkError Tree) (s : Site) (numbered : List (String × Nat)) : Prop :=
  ∃ told, s.Tells told (job.on s).2 ∧ told <+: numbered ∧
    ∀ r, (job.on s).1 = .ok r → told = numbered

/-- A run counts its stations from the first number on. -/
theorem numbers_run (dir : Path) (first : Nat) (stations : List Station) (t : Tree) (s : Site) :
    Numbers (run (some dir) first stations t) s ((stations.map Station.name).zipIdx first) := by
  induction stations generalizing first t s with
  | nil => exact ⟨[], Site.tells_of_journal rfl, List.nil_prefix, fun _ _ => rfl⟩
  | cons station stations ih =>
    obtain ⟨x, s₁, houtcome, hrun⟩ := exists_outcome dir first station t s
    rw [Numbers, hrun, List.map_cons, List.zipIdx_cons]
    cases houtcome with
    | stopped _ _ htells => exact ⟨[], htells, List.nil_prefix, by simp⟩
    | unsaved _ _ htells => exact ⟨[], htells, List.nil_prefix, by simp⟩
    | @saved t' _ _ _ _ _ _ _ htells =>
      obtain ⟨told, htold, hshort, hall⟩ := ih (first + 1) t' s₁
      refine ⟨(station.name, first) :: told, htells.append htold, ?_, fun r hr => ?_⟩
      · exact List.cons_prefix_cons.2 ⟨rfl, hshort⟩
      · rw [hall r hr]

/-- The run answers as its stations do, or with the error of a save. -/
theorem fst_on_run_cases (dir : Path) (first : Nat) (stations : List Station) (t : Tree)
    (s : Site) :
    ((run (some dir) first stations t).on s).1 = (passed stations t).mapError .structural ∨
      ∃ j e, SaveFails dir first stations t s j e ∧
        ((run (some dir) first stations t).on s).1 = .error e := by
  by_cases hfails : ∃ j e, SaveFails dir first stations t s j e
  · obtain ⟨j, e, hfails⟩ := hfails
    exact .inr ⟨j, e, hfails, fst_on_run_of_saveFails hfails⟩
  · exact .inl (fst_on_run_of_saved fun j e h => hfails ⟨j, e, h⟩)

/-- Saving fails for want of a place or of a file. -/
theorem SaveFails.cause (h : SaveFails dir first stations t s j e) :
    (∃ cause, e = .place cause) ∨ ∃ cause, e = .tree cause := by
  obtain ⟨before, station, after, u, v, s₁, -, -, -, -, hfails⟩ := h
  cases hfails with
  | place => exact .inl ⟨_, rfl⟩
  | tree => exact .inr ⟨_, rfl⟩

/-! ## Trains with and without snapshots -/

theorem fst_on_apply_plain (tr : Train) (t : Tree) (s : Site) :
    ((tr.plain.optimization.apply t).on s).1 = (passed tr.stations t).mapError .structural := by
  rw [apply_eq_run]
  exact (on_run_none 1 tr.stations t s).1

theorem apply_withSnapshots (tr : Train) (dir : Path) (t : Tree) :
    (tr.withSnapshots dir).optimization.apply t = run (some dir) 1 tr.stations t :=
  apply_eq_run (tr.withSnapshots dir) t

theorem map_name_contentStations (tr : Train) :
    tr.contentStations.map Station.name = tr.steps.map Step.name := by
  rw [contentStations, List.map_map]
  rfl

theorem map_name_gateStations (tr : Train) :
    tr.gateStations.map Station.name = tr.gates.map Gate.name := by
  rw [gateStations, List.map_map]
  rfl

theorem zipIdx_stationNames (tr : Train) :
    tr.stationNames.zipIdx 1 = (tr.steps.map Step.name).zipIdx 1 ++
      (tr.gates.map Gate.name).zipIdx (tr.steps.length + 1) := by
  rw [stationNames, List.map_append, map_name_contentStations, map_name_gateStations,
    List.zipIdx_append, List.length_map, Nat.add_comm]

/-- Snapshots can end the work of a train early and change nothing else about its answer, and they
are numbered through both phases in the order of the stations. -/
theorem snapshots_only_observe (tr : Train) (dir : Path) (t : Tree) (s : Site) :
    let plain := (tr.plain.optimization.apply t).on s
    let watched := ((tr.withSnapshots dir).optimization.apply t).on s
    (∀ r, watched.1 = .ok r → plain.1 = .ok r) ∧
      (∀ e, plain.1 = .error e →
        ∃ k failure, k ≤ tr.steps.length + tr.gates.length ∧ e = .structural failure ∧
          StopsAt tr.stations t k failure) ∧
      (∀ k failure, StopsAt tr.stations t k failure →
        plain.1 = .error (.structural failure) ∧
          (watched.1 = .error (.structural failure) ∨
            ∃ j e, j < k ∧ SaveFails dir 1 tr.stations t s j e ∧ watched.1 = .error e ∧
              ((∃ cause, e = .place cause) ∨ ∃ cause, e = .tree cause))) ∧
      ((∀ j e, ¬ SaveFails dir 1 tr.stations t s j e) → watched.1 = plain.1) ∧
      tr.stationNames.zipIdx 1 = (tr.steps.map Step.name).zipIdx 1 ++
        (tr.gates.map Gate.name).zipIdx (tr.steps.length + 1) ∧
      Numbers ((tr.withSnapshots dir).optimization.apply t) s (tr.stationNames.zipIdx 1) ∧
      Numbers ((tr.withSnapshots dir).transform t) s ((tr.steps.map Step.name).zipIdx 1) ∧
      ∀ r s₁, Numbers ((tr.withSnapshots dir).validate r) s₁
        ((tr.gates.map Gate.name).zipIdx (tr.steps.length + 1)) := by
  simp only [fst_on_apply_plain, apply_withSnapshots]
  refine ⟨fun r hr => ?_, fun e he => ?_, fun k failure hstops => ?_, fst_on_run_of_saved,
    zipIdx_stationNames tr, numbers_run dir 1 tr.stations t s, ?_, fun r s₁ => ?_⟩
  · rw [passed_of_on_run (Job.on_of_fst hr), mapError_ok]
  · cases hpassed : passed tr.stations t with
    | ok r => simp [hpassed] at he
    | error failure =>
      obtain ⟨k, hk, hstops⟩ := exists_stopsAt hpassed
      rw [hpassed, mapError_error] at he
      refine ⟨k, failure, ?_, (Except.error.inj he).symm, hstops⟩
      simpa [stations, contentStations, gateStations] using hk
  · have hstopped := passed_of_stopsAt hstops
    rw [hstopped]
    refine ⟨rfl, ?_⟩
    rcases fst_on_run_cases dir 1 tr.stations t s with hanswer | ⟨j, e, hfails, hanswer⟩
    · rw [hanswer, hstopped]
      exact .inl rfl
    · exact .inr ⟨j, e, lt_of_saveFails hfails hstops, hfails, hanswer, hfails.cause⟩
  · rw [← map_name_contentStations]
    exact numbers_run dir 1 tr.contentStations t s
  · rw [← map_name_gateStations]
    exact numbers_run dir (tr.steps.length + 1) tr.gateStations r s₁

/-- A step gives the tree a name that is no place. Without snapshots the gate stops the tree at the
third station, with them the work ends at the first. -/
theorem snapshots_only_observe_unplaced :
    let bad : Diagnostic := ⟨.error, "bad", none, none⟩
    let tr : Train := ⟨[⟨"rename", fun t => .ok (t.setAttribute Tree.nameKey ".")⟩,
      ⟨"lint", fun t => .ok (t.addError bad)⟩], [⟨.error⟩], none⟩
    let s : Site := { files := .fresh ["work"] }
    let watched := ((tr.withSnapshots ⟨"steps"⟩).optimization.apply (.ofName "a")).on s
    ((tr.plain.optimization.apply (.ofName "a")).on s).1 =
        .error (.structural ⟨"fail-on-errors", "1 error(s) found", [bad]⟩) ∧
      watched.1 = .error (.place (.empty ".")) ∧
      ∃ j, j < 3 ∧ SaveFails ⟨"steps"⟩ 1 tr.stations (.ofName "a") s j (.place (.empty ".")) := by
  intro bad tr s watched
  have hstops : StopsAt tr.stations (.ofName "a") 3
      ⟨"fail-on-errors", Gate.complaint ⟨.error⟩ 1, [bad]⟩ :=
    ⟨_, .gate ⟨.error⟩, [], _, rfl, rfl, rfl, rfl⟩
  have hcomplaint : Gate.complaint ⟨.error⟩ 1 = "1 error(s) found" := by decide
  rw [hcomplaint] at hstops
  have hunplaced : watched.1 = .error (.place (.empty ".")) := rfl
  obtain ⟨-, -, hstopped, -⟩ := snapshots_only_observe tr ⟨"steps"⟩ (.ofName "a") s
  obtain ⟨hplain, hsame | ⟨j, e, hlt, hfails, hwatched, -⟩⟩ := hstopped 3 _ hstops
  · cases hunplaced.symm.trans hsame
  · cases hunplaced.symm.trans hwatched
    exact ⟨hplain, hunplaced, j, hlt, hfails⟩

end Whole

end Train

end Trainyard
