import Trainyard.Proofs.Stage.Workshop
import Trainyard.Stage.Binarize
import Trainyard.Stage.Optimize

/-!
# How the stages run

Both stages make their directories, sort their programs as they stand then, and execute the
plan. Telling about it changes no file, and a run is a pass with a report.
-/

set_option autoImplicit false

namespace Trainyard.Stage

variable {ps : List Program} {s s' : Site} {e : WorkError} {u : Unit}

namespace Optimize

def scheme (stations : List String) : Scheme :=
  ⟨"03-optimize", ["json"], "02-steps", stations, "optimized"⟩

theorem tidy_scheme (stations : List String) : (scheme stations).Tidy := by
  have houtputs : Path.Stem "03-optimize" := ⟨by decide, by decide, by decide⟩
  have hsnapshots : Path.Stem "02-steps" := ⟨by decide, by decide, by decide⟩
  have hentries : Path.Stem "optimized" := ⟨by decide, by decide, by decide⟩
  have hextensions : ∀ e ∈ ["json"], e ≠ "" ∧ '/' ∉ e.toList ∧ e ≠ "tree" := by decide
  exact ⟨houtputs, hsnapshots, hentries, hextensions⟩

theorem outputs_ne_snapshots (stations : List String) :
    (scheme stations).outputs ≠ (scheme stations).snapshots := by
  show "03-optimize" ≠ "02-steps"
  decide

variable (stage : Optimize)

theorem evolves_on_prepare (ps : List Program) (s : Site) :
    s.files.Evolves (fun _ _ => False) ((stage.prepare ps).on s).2.files :=
  (scheme []).evolves_on_prepare stage.layout ps s

variable {stage}

theorem on_pass_of_unprepared (h : (stage.prepare ps).on s = (.error e, s')) :
    (stage.pass ps).on s = (.error e, s') := by
  rw [pass, Job.on_bind, h]

/-- With the directories made, a pass tells what it is about to do and settles all programs as
they stand then. -/
theorem on_pass_of_prepare (h : (stage.prepare ps).on s = (.ok u, s')) :
    ∃ s₁, s₁.files = s'.files ∧ (stage.pass ps).on s =
      (execute stage.task (Plan.make (stage.standing s₁.files) ps)).on s₁ := by
  rw [pass, Job.on_bind, h]
  simp only [Job.on_bind, Job.on_files]
  generalize hplan : Plan.make (stage.standing s'.files) ps = plan
  obtain ⟨s₂, hfresh, hfiles₂⟩ := on_tellAll (ε := WorkError) ((plan.select .fresh).map fun p =>
    .alreadyOptimized p.intermediate (p.optimized.getD ⟨""⟩)) s'
  obtain ⟨s₃, hdue, hfiles₃⟩ := on_tellAll (ε := WorkError) ((plan.select .due).map fun p =>
    .optimizationAdded p.intermediate) s₂
  have hfiles : s₃.files = s'.files := hfiles₃.trans hfiles₂
  let running : Event := .optimizationsRunning (plan.select .due).length
  refine ⟨{ s₃ with journal := s₃.journal.push running }, hfiles, ?_⟩
  simp only [hfresh, hdue, Job.on_tell, hfiles, hplan, running]

theorem on_run (stage : Optimize) (ps : List Program) (s : Site) :
    ∃ s', s'.files = ((stage.pass ps).on s).2.files ∧ (stage.run ps).on s =
      (((stage.pass ps).on s).1.map fun ledger => (ledger.report, ledger.programs), s') := by
  rw [run, Job.on_bind]
  rcases (stage.pass ps).on s with ⟨x, s₁⟩
  cases x with
  | error e => exact ⟨s₁, rfl, rfl⟩
  | ok ledger => exact ⟨{ s₁ with journal := s₁.journal.push _ }, rfl, rfl⟩

theorem settles_of_on_pass {ledger : Ledger} (h : (stage.pass ps).on s = (.ok ledger, s')) :
    ∃ s₁, s₁.files = s'.files ∧ Settles (stage.pass ps) (stage.run ps) s ledger s₁ := by
  obtain ⟨s₁, hfiles, hrun⟩ := stage.on_run ps s
  rw [h] at hfiles hrun
  exact ⟨s₁, hfiles, by rw [h], hrun⟩

theorem on_run_of_unprepared (h : (stage.prepare ps).on s = (.error e, s')) :
    ∃ s₁, s₁.files = s'.files ∧ (stage.run ps).on s = (.error e, s₁) := by
  obtain ⟨s₁, hfiles, hrun⟩ := stage.on_run ps s
  rw [on_pass_of_unprepared h] at hfiles hrun
  exact ⟨s₁, hfiles, hrun⟩

end Optimize

namespace Binarize

def scheme (stations : List String) : Scheme :=
  ⟨"binarize", ["json", "rs"], "binarize", stations, "binarized"⟩

theorem tidy_scheme (stations : List String) : (scheme stations).Tidy := by
  have houtputs : Path.Stem "binarize" := ⟨by decide, by decide, by decide⟩
  have hentries : Path.Stem "binarized" := ⟨by decide, by decide, by decide⟩
  have hextensions : ∀ e ∈ ["json", "rs"], e ≠ "" ∧ '/' ∉ e.toList ∧ e ≠ "tree" := by decide
  exact ⟨houtputs, houtputs, hentries, hextensions⟩

variable (stage : Binarize)

theorem evolves_on_prepare (ps : List Program) (s : Site) :
    s.files.Evolves (fun _ _ => False) ((stage.prepare ps).on s).2.files :=
  (scheme []).evolves_on_prepare stage.layout ps s

variable {stage}

theorem on_pass_of_unprepared (h : (stage.prepare ps).on s = (.error e, s')) :
    (stage.pass ps).on s = (.error e, s') := by
  rw [pass, Job.on_bind, h]

theorem on_pass_of_prepare (h : (stage.prepare ps).on s = (.ok u, s')) :
    ∃ s₁, s₁.files = s'.files ∧ (stage.pass ps).on s =
      (execute stage.task (Plan.make (stage.standing s₁.files) ps)).on s₁ := by
  rw [pass, Job.on_bind, h]
  simp only [Job.on_bind, Job.on_files]
  generalize hplan : Plan.make (stage.standing s'.files) ps = plan
  obtain ⟨s₂, hfresh, hfiles⟩ := on_tellAll (ε := WorkError)
    ((plan.select .fresh).map fun p => .alreadyBinarized p.name) s'
  refine ⟨s₂, hfiles, ?_⟩
  simp only [hfresh, hfiles, hplan]

theorem on_run (henabled : stage.config.enabled = true) (ps : List Program) (s : Site) :
    ∃ s', s'.files = ((stage.pass ps).on s).2.files ∧ (stage.run ps).on s =
      (((stage.pass ps).on s).1.map fun ledger => (ledger.report, ledger.programs), s') := by
  rw [run, if_pos henabled, Job.on_bind]
  rcases (stage.pass ps).on s with ⟨x, s₁⟩
  cases x with
  | error e => exact ⟨s₁, rfl, rfl⟩
  | ok ledger => exact ⟨{ s₁ with journal := s₁.journal.push _ }, rfl, rfl⟩

theorem settles_of_on_pass (henabled : stage.config.enabled = true) {ledger : Ledger}
    (h : (stage.pass ps).on s = (.ok ledger, s')) :
    ∃ s₁, s₁.files = s'.files ∧ Settles (stage.pass ps) (stage.run ps) s ledger s₁ := by
  obtain ⟨s₁, hfiles, hrun⟩ := on_run henabled ps s
  rw [h] at hfiles hrun
  exact ⟨s₁, hfiles, by rw [h], hrun⟩

theorem on_run_of_unprepared (henabled : stage.config.enabled = true)
    (h : (stage.prepare ps).on s = (.error e, s')) :
    ∃ s₁, s₁.files = s'.files ∧ (stage.run ps).on s = (.error e, s₁) := by
  obtain ⟨s₁, hfiles, hrun⟩ := on_run henabled ps s
  rw [on_pass_of_unprepared h] at hfiles hrun
  exact ⟨s₁, hfiles, hrun⟩

def deliver (stage : Binarize) (p : Program) (place : Place) (result : Tree) :
    Job WorkError (Outcome × Program) := do
  Job.adapt .tree (result.save (stage.treeOutput place))
  let code ← Job.ofExcept .tree (result.require Tree.codeKey)
  let target := stage.codeOutput place
  Job.change (.io target) (·.write target code.toUTF8)
  Job.tell (.binarized p.name target)
  pure (.recomputed, { p with binarized := some target })

theorem task_eq (stage : Binarize) (p : Program) : stage.task p = (do
    let place ← Job.ofExcept .place p.place
    match p.optimized with
    | none => Job.fail (.internal ⟨s!"{p.name} was scheduled without an optimized tree"⟩)
    | some input => do
      let tree ← Job.adapt .tree (Tree.load input)
      let result ← applyTo stage.optimization stage.layout.binarizedCacheDir p tree
      stage.deliver p place result) := rfl

def target (stage : Binarize) (p : Program) : Option Path := p.place.toOption.map stage.codeOutput

def inputs (p : Program) : List Path := p.source :: p.optimized.toList

theorem newer_eq_false {fs : FileSystem} {out : Nat} {i : Path} :
    newer fs out i = false ↔ ∀ t, fs.modified? i = some t → t ≤ out := by
  rw [newer]
  cases fs.modified? i <;> simp

theorem needsCode_eq_false {fs : FileSystem} {p : Program} {code : Path} :
    needsCode fs p code = false ↔ ∃ out, fs.modified? code = some out ∧
      ∀ i ∈ inputs p, ∀ t, fs.modified? i = some t → t ≤ out := by
  rw [needsCode]
  cases fs.modified? code with
  | none => simp
  | some out =>
    have hinputs : (∀ i ∈ inputs p, ∀ t, fs.modified? i = some t → t ≤ out) ↔
        newer fs out p.source = false ∧ p.optimized.any (newer fs out) = false := by
      rw [inputs, List.forall_mem_cons, newer_eq_false]
      cases p.optimized <;> simp [newer_eq_false]
    simp [hinputs, and_comm]

theorem standing_eq_fresh (stage : Binarize) (fs : FileSystem) (p : Program) :
    stage.standing fs p = .fresh ↔ stage.inScope p = true ∧
      ∃ o ∈ stage.target p, ∃ out, fs.modified? o = some out ∧
        ∀ i ∈ inputs p, ∀ t, fs.modified? i = some t → t ≤ out := by
  rw [standing, target]
  by_cases hscope : stage.inScope p = true
  · cases p.place with
    | error e => simp [hscope, Except.toOption]
    | ok place =>
      have hneeds : needsCode fs p (stage.codeOutput place) = false ↔ _ := needsCode_eq_false
      by_cases hdue : needsCode fs p (stage.codeOutput place) = true
      · rw [hdue] at hneeds
        simp only [hscope, hdue, Except.toOption, if_true]
        simpa using hneeds
      · rw [Bool.not_eq_true] at hdue
        simp only [hscope, hdue, Except.toOption, if_true]
        simpa using hneeds.1 hdue
  · simp [hscope]

end Binarize

end Trainyard.Stage
