import Trainyard.Train
import Trainyard.Proofs.Job
import Trainyard.Proofs.Path

/-!
# What a train makes of a tree

The answer of a train depends on the tree alone: `Train.passed` is that answer, as a
function. A train without snapshots gives it on every site and leaves the files as they
are. With snapshots the work can fail in between, but an answer that is given is the
same, and all that is written lies below the directory of the snapshots.
-/

set_option autoImplicit false

namespace Trainyard

theorem Tree.count_eq_zero {t : Tree} {severity : Severity} :
    t.count severity = 0 ↔ ∀ d ∈ t.errors.toList, d.severity ≠ severity := by
  rw [count, Series.count_eq_countP, List.countP_eq_zero]
  simp

theorem Tree.has_eq_true {t : Tree} {severity : Severity} :
    t.has severity = true ↔ ∃ d ∈ t.errors.toList, d.severity = severity := by
  rw [has, Series.any_eq_any, List.any_eq_true]
  simp

theorem Tree.has_eq_false {t : Tree} {severity : Severity} :
    t.has severity = false ↔ ∀ d ∈ t.errors.toList, d.severity ≠ severity := by
  rw [has, Series.any_eq_any, List.any_eq_false]
  simp

theorem Gate.apply_ok {g : Gate} {t t' : Tree} (h : g.apply t = .ok t') : t' = t := by
  rw [apply] at h
  split at h
  next => exact (Except.ok.inj h).symm
  next => simp at h

theorem Station.apply_of_pass {station : Station} {t t' : Tree} (h : station.pass t = .ok t') :
    station.apply t = .ok t' := by
  rw [pass] at h
  cases happly : station.apply t with
  | error e => simp [happly] at h
  | ok r => simpa [happly] using h

def Optimization.Computes (o : Optimization) (f : Tree → Except WorkError Tree) : Prop :=
  ∀ t s, ((o.transform t).on s).1 = f t ∧ ((o.transform t).on s).2.files = s.files

namespace Train

def passed : List Station → Tree → Except StructuralFailure Tree
  | [], t => .ok t
  | s :: ss, t =>
    match s.pass t with
    | .error failure => .error failure
    | .ok t' => passed ss t'

def content (tr : Train) (t : Tree) : Except StructuralFailure Tree := passed tr.contentStations t

def verdict (tr : Train) (t : Tree) : Except StructuralFailure Tree := passed tr.gateStations t

def answer (tr : Train) (t : Tree) : Except StructuralFailure Tree :=
  match tr.content t with
  | .error failure => .error failure
  | .ok r => tr.verdict r

def plain (tr : Train) : Train := { tr with snapshots := none }

section Run

variable {snapshots : Option Path} {position : Nat} {stations : List Station} {t r : Tree}
  {s s' : Site}

theorem on_run_cons (snapshots : Option Path) (position : Nat) (station : Station)
    (stations : List Station) (t : Tree) (s : Site) :
    ∃ s₁, s₁.files = s.files ∧ (run snapshots position (station :: stations) t).on s =
      match station.pass t with
      | .error failure => (.error (.structural failure), s₁)
      | .ok t' => (do
          saveSnapshot snapshots position station.name t'
          run snapshots (position + 1) stations t').on s₁ := by
  obtain ⟨s₁, hannounce, hfiles⟩ :
      ∃ s₁, (station.announce t).on s = (.ok (), s₁) ∧ s₁.files = s.files := by
    cases station <;> exact ⟨_, rfl, rfl⟩
  refine ⟨s₁, hfiles, ?_⟩
  rw [run, Job.on_bind, hannounce]
  simp only [Job.on_bind, Job.on_ofExcept]
  cases station.pass t <;> rfl

theorem on_run_none (position : Nat) (stations : List Station) (t : Tree) (s : Site) :
    ((run none position stations t).on s).1 = (passed stations t).mapError .structural ∧
      ((run none position stations t).on s).2.files = s.files := by
  induction stations generalizing position t s with
  | nil => exact ⟨rfl, rfl⟩
  | cons station stations ih =>
    obtain ⟨s₁, hfiles, hrun⟩ := on_run_cons none position station stations t s
    rw [hrun, passed]
    cases station.pass t with
    | error failure => exact ⟨rfl, hfiles⟩
    | ok t' =>
      obtain ⟨hanswer, hsame⟩ := ih (position + 1) t' s₁
      exact ⟨hanswer, hsame.trans hfiles⟩

theorem on_transform_of_plain {tr : Train} (h : tr.snapshots = none) (t : Tree) (s : Site) :
    ((tr.transform t).on s).1 = (tr.content t).mapError .structural ∧
      ((tr.transform t).on s).2.files = s.files := by
  rw [transform, h]
  exact on_run_none 1 tr.contentStations t s

theorem computes_of_plain {tr : Train} (h : tr.snapshots = none) :
    tr.optimization.Computes fun t => (tr.content t).mapError .structural :=
  on_transform_of_plain h

theorem on_validate_of_plain {tr : Train} (h : tr.snapshots = none) (t : Tree) (s : Site) :
    ((tr.validate t).on s).1 = (tr.verdict t).mapError .structural ∧
      ((tr.validate t).on s).2.files = s.files := by
  rw [validate, h]
  exact on_run_none (tr.steps.length + 1) tr.gateStations t s

theorem fst_on_apply {tr : Train} (h : tr.snapshots = none) {o : Optimization}
    (hvalidate : o.validate = tr.validate) {t : Tree} {s : Site}
    (htransform : ((o.transform t).on s).1 = (tr.content t).mapError .structural) :
    ((o.apply t).on s).1 = (tr.answer t).mapError .structural := by
  rw [Optimization.apply, Job.on_bind, answer, hvalidate]
  rcases hrun : (o.transform t).on s with ⟨result, s₁⟩
  rw [hrun] at htransform
  cases hcontent : tr.content t with
  | error failure =>
    rw [hcontent] at htransform
    subst htransform
    rfl
  | ok r =>
    rw [hcontent] at htransform
    subst htransform
    exact (on_validate_of_plain h r s₁).1

/-- A train without snapshots gives the same answer on every site. -/
theorem fst_on_apply_of_plain {tr : Train} (h : tr.snapshots = none) (t : Tree) (s : Site) :
    ((tr.optimization.apply t).on s).1 = (tr.answer t).mapError .structural :=
  fst_on_apply h rfl (on_transform_of_plain h t s).1

/-- Snapshots can stop the work and never change its answer. -/
theorem passed_of_on_run (h : (run snapshots position stations t).on s = (.ok r, s')) :
    passed stations t = .ok r := by
  induction stations generalizing position t s with
  | nil =>
    cases (Prod.mk.inj h).1
    rfl
  | cons station stations ih =>
    obtain ⟨s₁, -, hrun⟩ := on_run_cons snapshots position station stations t s
    rw [hrun] at h
    rw [passed]
    cases hpass : station.pass t with
    | error failure => simp [hpass] at h
    | ok t' =>
      rw [hpass] at h
      obtain ⟨-, s₂, -, hrest⟩ := Job.on_bind_ok h
      exact ih hrest

end Run

/-! ## Where snapshots go -/

def snapshotStem (position : Nat) (station : String) : String :=
  padded position ++ "-" ++ fileSafe station

theorem snapshotName_eq (position : Nat) (station : String) :
    snapshotName position station = snapshotStem position station ++ ".json" := rfl

theorem mem_snapshotStem {position : Nat} {station : String} {c : Char}
    (hc : c ∈ (snapshotStem position station).toList) : c ≠ '/' ∧ c ≠ '.' := by
  simp only [snapshotStem, padded, fileSafe, String.toList_append, String.toList_ofList,
    List.mem_append, List.mem_map, List.mem_replicate] at hc
  rcases hc with ((⟨-, rfl⟩ | hdigit) | hdash) | ⟨d, -, hsafe⟩
  · decide
  · have hdigit := Nat.isDigit_of_mem_toDigits (by decide) (by decide) hdigit
    constructor <;> rintro rfl <;> exact absurd hdigit (by decide)
  · constructor <;> rintro rfl <;> exact absurd hdash (by decide)
  · split at hsafe
    next h =>
      subst hsafe
      constructor <;> rintro rfl <;> exact absurd h (by decide)
    next => exact hsafe ▸ by decide

theorem not_slash_mem_snapshotName (position : Nat) (station : String) :
    '/' ∉ (snapshotName position station).toList := by
  rw [snapshotName_eq, String.toList_append, List.mem_append]
  rintro (hstem | hjson)
  · exact (mem_snapshotStem hstem).1 rfl
  · exact absurd hjson (by decide)

theorem dash_mem_snapshotName (position : Nat) (station : String) :
    '-' ∈ (snapshotName position station).toList := by simp [snapshotName]

theorem plain_snapshotName (position : Nat) (station : String) :
    Path.Plain (snapshotName position station) := by
  have hdash := dash_mem_snapshotName position station
  refine ⟨?_, not_slash_mem_snapshotName position station, ?_, ?_⟩ <;>
  · intro h
    rw [h] at hdash
    exact absurd hdash (by decide)

def snapshotKey (working : Key) (dir : Path) (place : Place) (position : Nat) (station : String) :
    Key :=
  ((place.within dir "").child (snapshotName position station)).key working

theorem snapshotKey_eq (working : Key) (dir : Path) {place : Place} (hp : place.Proper)
    (position : Nat) (station : String) : snapshotKey working dir place position station =
      dir.key working ++ place.segments ++ [snapshotName position station] := by
  have hending : Place.ending "" = "" := if_pos rfl
  rw [snapshotKey, Path.key_child (plain_snapshotName position station),
    Place.key_within working dir hp (by simp), hending, Place.componentsOf_empty]

theorem below_snapshotKey (working : Key) (dir : Path) {place : Place} (hp : place.Proper)
    (position : Nat) (station : String) :
    dir.key working <+: snapshotKey working dir place position station := by
  rw [snapshotKey_eq working dir hp, List.append_assoc]
  exact List.prefix_append _ _

theorem obeys_run {R : FileSystem → FileSystem → Prop} (hR : Job.Composes R)
    {snapshots : Option Path} (hsave : ∀ dir ∈ snapshots, ∀ (place : Place) position station
      (t : Tree), place.Proper →
      Job.Obeys R (t.save ((place.within dir "").child (snapshotName position station))))
    (position : Nat) (stations : List Station) (t : Tree) :
    Job.Obeys R (run snapshots position stations t) := by
  have hsnapshot (position : Nat) (station : String) (t : Tree) :
      Job.Obeys R (saveSnapshot snapshots position station t) := by
    cases snapshots with
    | none => exact Job.obeys_pure hR ()
    | some dir =>
      have hplace : ∀ s place s', (Job.ofExcept WorkError.place t.place).on s = (.ok place, s') →
          place.Proper :=
        fun s place s' h => Place.proper_of_ofName (Job.on_ofExcept_ok h).1
      refine Job.obeys_bind_of hR _ (Job.obeys_ofExcept hR _ _) hplace fun place hproper => ?_
      refine Job.obeys_bind hR (Job.obeys_adapt _ ?_) fun _ => Job.obeys_tell hR _
      exact hsave dir rfl place position station t hproper
  induction stations generalizing position t with
  | nil => exact Job.obeys_pure hR t
  | cons station stations ih =>
    have hannounce : Job.Obeys R (station.announce t) := by
      cases station <;> exact Job.obeys_of_files_eq hR fun _ => rfl
    refine Job.obeys_bind hR hannounce fun _ => ?_
    refine Job.obeys_bind hR (Job.obeys_ofExcept hR _ _) fun t' => ?_
    exact Job.obeys_bind hR (hsnapshot position station.name t') fun _ => ih (position + 1) t'

/-- A train writes nothing but snapshots. -/
theorem within_run {working : Key} {writes : FileSystem.Writes} {snapshots : Option Path}
    (hw : ∀ dir ∈ snapshots, ∀ place position station b, place.Proper →
      writes (snapshotKey working dir place position station) b) (position : Nat)
    (stations : List Station) (t : Tree) :
    Job.Within working writes (run snapshots position stations t) :=
  obeys_run (Job.composes_evolves working writes) (fun dir hdir place position station _ hp =>
    Tree.within_save (hw dir hdir place position station _ hp)) position stations t

end Train

end Trainyard
