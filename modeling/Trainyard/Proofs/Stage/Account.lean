import Trainyard.Proofs.Stage.Effect

/-!
# What a run accounts for

A run looks at every program once and in its place. Each is out of scope, skipped, recomputed,
withheld or failed; only a recomputed one gets another record. The report counts them, and what
it counts adds up. A run that cannot make its directories hands nothing back and changes no file.
-/

set_option autoImplicit false

namespace Trainyard.Stage

/-! ## Reports -/

def Line.failure? (line : Line) : Option Failure :=
  match line.fate with
  | .worked (.error e) => some ⟨line.program.name, e⟩
  | _ => none

structure Report.Counts (r : Report) (l : Ledger) : Prop where
  total : r.total = l.countP (·.fate ≠ .outOfScope)
  skipped : r.skipped = l.countP (·.fate = .skipped)
  recomputed : r.recomputed = l.countP (·.fate = .worked (.ok .recomputed))
  withheld : r.withheld = l.countP (·.fate = .worked (.ok .withheld))
  failures : r.failures = l.filterMap Line.failure?

namespace Report.Counts

variable {r : Report} {l : Ledger}

theorem concat (h : r.Counts l) (line : Line) : (r.add line).Counts (l ++ [line]) := by
  obtain ⟨p, fate⟩ := line
  obtain ⟨htotal, hskipped, hrecomputed, hwithheld, hfailures⟩ := h
  constructor <;> rw [Report.add] <;>
    rcases fate with _ | _ | _ | _ | _ <;> simp [Line.failure?, *]

theorem foldl (h : r.Counts l) (l' : Ledger) : (l'.foldl Report.add r).Counts (l ++ l') := by
  induction l' generalizing r l with
  | nil => simpa using h
  | cons line l' ih => simpa using ih (h.concat line)

/-- A report that counts a ledger adds up: each line in scope has exactly one other fate. -/
theorem balance (h : r.Counts l) :
    r.total = r.skipped + r.recomputed + r.withheld + r.failures.length := by
  rw [h.total, h.skipped, h.recomputed, h.withheld, h.failures]
  clear h
  induction l with
  | nil => rfl
  | cons line l ih =>
    obtain ⟨p, fate⟩ := line
    rcases fate with _ | _ | _ | _ | _ <;>
      simp [Line.failure?, List.filterMap_cons] at ih ⊢ <;> omega

end Report.Counts

theorem Ledger.counts_report (l : Ledger) : l.report.Counts l :=
  Report.Counts.foldl (r := {}) (l := []) ⟨rfl, rfl, rfl, rfl, rfl⟩ l

/-! ## Ledgers -/

/-- What a run makes of one program: the fate tells whether it is in scope, a recomputed program
has a new record for its place, and any other keeps the one it had. -/
structure Treats (inScope : Program → Bool) (record : Program → Place → Program) (p : Program)
    (line : Line) : Prop where
  scope : line.fate = .outOfScope ↔ inScope p = false
  recorded : line.fate = .worked (.ok .recomputed) →
    ∃ place, p.place = .ok place ∧ line.program = record p place
  kept : line.fate ≠ .worked (.ok .recomputed) → line.program = p

structure Keeps (inScope : Program → Bool) (record : Program → Place → Program)
    (standing : FileSystem → Program → Standing)
    (task : Program → Job WorkError (Outcome × Program)) : Prop where
  scope : ∀ fs p, standing fs p = .outOfScope ↔ inScope p = false
  done : ∀ p s outcome p' s', (task p).on s = (.ok (outcome, p'), s') →
    (outcome = .recomputed ∧ ∃ place, p.place = .ok place ∧ p' = record p place) ∨
      (outcome = .withheld ∧ p' = p)

section Execute

variable {inScope : Program → Bool} {record : Program → Place → Program}
  {standing : FileSystem → Program → Standing}
  {task : Program → Job WorkError (Outcome × Program)}

theorem Keeps.treats_lineOf (h : Keeps inScope record standing task) (fs : FileSystem)
    (p : Program) (s : Site) :
    Treats inScope record p (lineOf p (standing fs p) ((task p).on s).1) := by
  have hscope := h.scope fs p
  generalize standing fs p = st at hscope
  cases st with
  | outOfScope => exact ⟨by simpa [lineOf] using hscope, by simp [lineOf], fun _ => rfl⟩
  | fresh => exact ⟨by simpa [lineOf] using hscope, by simp [lineOf], fun _ => rfl⟩
  | due =>
    rcases htask : (task p).on s with ⟨e | ⟨outcome, p'⟩, s'⟩
    · exact ⟨by simpa [lineOf] using hscope, by simp [lineOf], fun _ => rfl⟩
    · rcases h.done p s outcome p' s' htask with ⟨rfl, hrecord⟩ | ⟨rfl, rfl⟩
      · exact ⟨by simpa [lineOf] using hscope, fun _ => hrecord, fun hne => absurd rfl hne⟩
      · exact ⟨by simpa [lineOf] using hscope, by simp [lineOf], fun _ => rfl⟩

theorem Keeps.on_execute (h : Keeps inScope record standing task) (fs : FileSystem)
    (ps : List Program) (s : Site) :
    ∃ ledger s', (execute task (Plan.make (standing fs) ps)).on s = (.ok ledger, s') ∧
      List.Forall₂ (Treats inScope record) ps ledger := by
  have hany : ∀ p, Job.Obeys (fun _ _ => True) (task p) := fun _ _ => trivial
  obtain ⟨ledger, s', hexecute, -, hlines⟩ := on_execute_lines
    ⟨fun _ => trivial, fun _ _ => trivial⟩ hany (Plan.make (standing fs) ps) s
  refine ⟨ledger, s', hexecute, (List.forall₂_map_left_iff.1 hlines).imp fun p line h => ?_⟩
  obtain ⟨s₁, -, rfl, -⟩ := h
  exact h.treats_lineOf fs p s₁

end Execute

/-! ## Runs -/

def SameFiles (before after : FileSystem) : Prop :=
  ∀ k b t, after.item? k = some (.file b t) ↔ before.item? k = some (.file b t)

theorem sameFiles_of_evolves {fs fs' : FileSystem} (h : fs.Evolves (fun _ _ => False) fs') :
    SameFiles fs fs' := by
  intro k b t
  rcases h.item k with hsame | ⟨hnone, hmade⟩ | ⟨-, _, hfalse, -⟩
  · rw [hsame]
  · simp [hnone, hmade]
  · exact hfalse.elim

/-- How a run ends. With its directories made, it treats every program and reports what became
of them. Otherwise it fails with the directory that could not be made, hands no records back,
and has changed no file. -/
inductive Concludes (inScope : Program → Bool) (record : Program → Place → Program)
    (dirs : List Path) (ps : List Program) (s : Site) :
    Except WorkError Ledger → Except WorkError (Report × List Program) × Site → Prop where
  | settled {ledger : Ledger} {report : Report} {ps' : List Program} {s' : Site}
      (lines : List.Forall₂ (Treats inScope record) ps ledger)
      (programs : ps' = ledger.map (·.program))
      (counts : report.Counts ledger)
      (total : report.total = ps.countP inScope)
      (balance : report.total =
        report.skipped + report.recomputed + report.withheld + report.failures.length) :
      Concludes inScope record dirs ps s (.ok ledger) (.ok (report, ps'), s')
  | unprepared {dir : Path} {cause : OsError} {s' : Site} (mem : dir ∈ dirs)
      (files : SameFiles s.files s'.files) :
      Concludes inScope record dirs ps s (.error (.io dir cause)) (.error (.io dir cause), s')

section Concludes

variable {inScope : Program → Bool} {record : Program → Place → Program} {ps : List Program}

theorem countP_inScope {ledger : Ledger} (h : List.Forall₂ (Treats inScope record) ps ledger) :
    ledger.countP (·.fate ≠ .outOfScope) = ps.countP inScope := by
  induction h with
  | nil => rfl
  | cons hline _ ih =>
    rw [List.countP_cons, List.countP_cons, ih]
    simp [hline.scope]

theorem concludes_of_lines {dirs : List Path} {s s' : Site} {ledger : Ledger}
    (h : List.Forall₂ (Treats inScope record) ps ledger) :
    Concludes inScope record dirs ps s (.ok ledger)
      (.ok (ledger.report, ledger.programs), s') := by
  have hcounts := ledger.counts_report
  exact .settled h rfl hcounts (hcounts.total.trans (countP_inScope h)) hcounts.balance

end Concludes

theorem Scheme.dir_of_on_prepare_error {S : Scheme} {l : Layout} {ps : List Program} {s s' : Site}
    {e : WorkError} (h : (S.prepare l ps).on s = (.error e, s')) :
    ∃ dir ∈ [l.target.child S.outputs, l.cache.child S.entries], ∃ cause, e = .io dir cause := by
  rw [Scheme.prepare, Job.on_bind, Job.on_makeDirectories] at h
  cases htarget : (s.files.makeDirectories (l.target.child S.outputs)).1 with
  | error cause =>
    rw [htarget] at h
    exact ⟨_, List.mem_cons_self, cause, Except.error.inj (Prod.mk.inj h).1.symm⟩
  | ok u =>
    rw [htarget] at h
    by_cases hany : ps.any (·.digest.isSome) = true
    · simp only [mapError_ok, if_pos hany, Job.on_makeDirectories] at h
      generalize FileSystem.makeDirectories _ _ = made at h
      obtain ⟨cause | u, fs⟩ := made
      · exact ⟨_, List.mem_cons_of_mem _ List.mem_cons_self, cause,
          Except.error.inj (Prod.mk.inj h).1.symm⟩
      · simp at h
    · simp [hany] at h

namespace Optimize

variable (stage : Optimize)

def record (p : Program) (place : Place) : Program :=
  { p with optimized := some (place.within stage.layout.optimizeDir "json") }

variable {stage} {ps : List Program} {p p' : Program} {place : Place} {result : Tree}
  {outcome : Outcome} {s s' : Site}

theorem on_deliver_ok (h : (stage.deliver p place result).on s = (.ok (outcome, p'), s')) :
    (outcome = .recomputed ∧ p' = stage.record p place ∧ stage.accepts result = true ∧
      ∃ s₁ u, (result.save (stage.output place)).on s = (.ok u, s₁) ∧ s'.files = s₁.files) ∨
    (outcome = .withheld ∧ p' = p ∧ stage.accepts result = false ∧ s'.files = s.files) := by
  rw [deliver] at h
  split at h
  next haccepts =>
    obtain ⟨u, s₁, hsave, h⟩ := Job.on_bind_ok h
    cases h
    exact .inl ⟨rfl, rfl, haccepts, s₁, u, Job.on_adapt_ok hsave, rfl⟩
  next hrefuses =>
    rw [Bool.not_eq_true] at hrefuses
    cases h
    exact .inr ⟨rfl, rfl, hrefuses, rfl⟩

theorem on_task_ok (h : (stage.task p).on s = (.ok (outcome, p'), s')) :
    ∃ place tree result s₁ s₂, p.place = .ok place ∧
      (applyTo stage.train stage.layout.optimizedCacheDir p tree).on s₁ = (.ok result, s₂) ∧
      (stage.deliver p place result).on s₂ = (.ok (outcome, p'), s') := by
  obtain ⟨place, s₁, hplace, h⟩ := Job.on_bind_ok h
  obtain ⟨tree, s₂, -, h⟩ := Job.on_bind_ok h
  obtain ⟨result, s₃, happly, h⟩ := Job.on_bind_ok h
  exact ⟨place, tree, result, s₂, s₃, (Job.on_ofExcept_ok hplace).1, happly, h⟩

theorem keeps (stage : Optimize) : Keeps (fun p => p.scope = stage.config.scope) stage.record
    stage.standing stage.task where
  scope fs p := by
    by_cases hscope : p.scope = stage.config.scope
    · by_cases hdue : p.needsOptimization fs = true <;> simp [standing, hscope, hdue]
    · simp [standing, hscope]
  done p s outcome p' s' h := by
    obtain ⟨place, tree, result, s₁, s₂, hplace, -, hdeliver⟩ := on_task_ok h
    rcases on_deliver_ok hdeliver with ⟨houtcome, hrecord, -⟩ | ⟨houtcome, hrecord, -⟩
    · exact .inl ⟨houtcome, place, hplace, hrecord⟩
    · exact .inr ⟨houtcome, hrecord⟩

theorem concludes_on_run (stage : Optimize) (ps : List Program) (s : Site) :
    Concludes (fun p => p.scope = stage.config.scope) stage.record
      [stage.layout.optimizeDir, stage.layout.optimizedCacheDir] ps s ((stage.pass ps).on s).1
      ((stage.run ps).on s) := by
  rcases hprepare : (stage.prepare ps).on s with ⟨e | u, s₀⟩
  · obtain ⟨dir, hdir, cause, rfl⟩ := (scheme []).dir_of_on_prepare_error hprepare
    obtain ⟨s₁, hfiles, hrun⟩ := on_run_of_unprepared hprepare
    have hsame := sameFiles_of_evolves (stage.evolves_on_prepare ps s)
    rw [hprepare, ← hfiles] at hsame
    rw [on_pass_of_unprepared hprepare, hrun]
    exact .unprepared hdir hsame
  · obtain ⟨s₁, -, hpass⟩ := on_pass_of_prepare hprepare
    obtain ⟨ledger, s₂, hexecute, hlines⟩ := stage.keeps.on_execute s₁.files ps s₁
    rw [hexecute] at hpass
    obtain ⟨s₃, -, hsettles⟩ := settles_of_on_pass hpass
    rw [hsettles.pass, hsettles.run]
    exact concludes_of_lines hlines

end Optimize

namespace Binarize

variable (stage : Binarize)

def record (p : Program) (place : Place) : Program :=
  { p with binarized := some (place.within stage.layout.binarizeDir "rs") }

variable {stage} {ps : List Program} {p p' : Program} {outcome : Outcome} {s s' : Site}

theorem on_task_ok (h : (stage.task p).on s = (.ok (outcome, p'), s')) :
    outcome = .recomputed ∧ ∃ (place : Place) (code : ByteArray) (s₁ : Site),
      p.place = .ok place ∧ p' = stage.record p place ∧
      s₁.files.write (stage.codeOutput place) code = .ok s'.files := by
  obtain ⟨place, s₁, hplace, h⟩ := Job.on_bind_ok h
  cases hinput : p.optimized with
  | none =>
    rw [hinput] at h
    cases h
  | some input =>
    rw [hinput] at h
    obtain ⟨tree, s₂, -, h⟩ := Job.on_bind_ok h
    obtain ⟨result, s₃, -, h⟩ := Job.on_bind_ok h
    obtain ⟨⟨⟩, s₄, -, h⟩ := Job.on_bind_ok h
    obtain ⟨code, s₅, -, h⟩ := Job.on_bind_ok h
    obtain ⟨⟨⟩, s₆, hwrite, h⟩ := Job.on_bind_ok h
    obtain ⟨fs, hfs, rfl⟩ := Job.on_change_ok hwrite
    cases h
    refine ⟨rfl, place, code.toUTF8, s₅, (Job.on_ofExcept_ok hplace).1, ?_, hfs⟩
    rw [record, hinput]
    rfl

theorem keeps (stage : Binarize) : Keeps stage.inScope stage.record stage.standing stage.task where
  scope fs p := by
    rw [standing]
    by_cases hscope : stage.inScope p = true
    · cases hplace : p.place with
      | error e => simp [hscope]
      | ok place =>
        by_cases hdue : needsCode fs p (stage.codeOutput place) = true <;> simp [hscope, hdue]
    · simp [hscope]
  done p s outcome p' s' h := by
    obtain ⟨houtcome, place, -, -, hplace, hrecord, -⟩ := on_task_ok h
    exact .inl ⟨houtcome, place, hplace, hrecord⟩

theorem concludes_on_run (henabled : stage.config.enabled = true) (ps : List Program) (s : Site) :
    Concludes stage.inScope stage.record
      [stage.layout.binarizeDir, stage.layout.binarizedCacheDir] ps s ((stage.pass ps).on s).1
      ((stage.run ps).on s) := by
  rcases hprepare : (stage.prepare ps).on s with ⟨e | u, s₀⟩
  · obtain ⟨dir, hdir, cause, rfl⟩ := (scheme []).dir_of_on_prepare_error hprepare
    obtain ⟨s₁, hfiles, hrun⟩ := on_run_of_unprepared henabled hprepare
    have hsame := sameFiles_of_evolves (stage.evolves_on_prepare ps s)
    rw [hprepare, ← hfiles] at hsame
    rw [on_pass_of_unprepared hprepare, hrun]
    exact .unprepared hdir hsame
  · obtain ⟨s₁, -, hpass⟩ := on_pass_of_prepare hprepare
    obtain ⟨ledger, s₂, hexecute, hlines⟩ := stage.keeps.on_execute s₁.files ps s₁
    rw [hexecute] at hpass
    obtain ⟨s₃, -, hsettles⟩ := settles_of_on_pass henabled hpass
    rw [hsettles.pass, hsettles.run]
    exact concludes_of_lines hlines

/-- A stage that is not enabled leaves all programs and files, and counts as skipped what is in
its scope. -/
theorem on_run_of_disabled (hdisabled : stage.config.enabled = false) (ps : List Program)
    (s : Site) :
    ∃ s', s'.files = s.files ∧ (stage.run ps).on s =
      (.ok ({ total := ps.countP stage.inScope, skipped := ps.countP stage.inScope }, ps), s') := by
  rw [run, hdisabled, List.countP_eq_length_filter]
  exact ⟨{ s with journal := s.journal.push .binarizationDisabled }, rfl, rfl⟩

end Binarize

/-- Every run accounts for its programs. It hands them back in their order, with one line of the
ledger each, and only recomputed programs have another record: the output for their place. The
report counts the programs in scope, each once, and lists the failures in order. Runs that fail
and runs of a stage that is not enabled change no program and no file. -/
theorem run_accounts_for_programs :
    (∀ (stage : Optimize) (ps : List Program) (s : Site),
      Concludes (fun p => p.scope = stage.config.scope) stage.record
        [stage.layout.optimizeDir, stage.layout.optimizedCacheDir] ps s ((stage.pass ps).on s).1
        ((stage.run ps).on s)) ∧
    ∀ (stage : Binarize) (ps : List Program) (s : Site),
      (stage.config.enabled = true → Concludes stage.inScope stage.record
        [stage.layout.binarizeDir, stage.layout.binarizedCacheDir] ps s ((stage.pass ps).on s).1
        ((stage.run ps).on s)) ∧
      (stage.config.enabled = false → ∃ s', s'.files = s.files ∧ (stage.run ps).on s =
        (.ok ({ total := ps.countP stage.inScope, skipped := ps.countP stage.inScope }, ps), s')) :=
  ⟨Optimize.concludes_on_run, fun _ ps s =>
    ⟨fun henabled => Binarize.concludes_on_run henabled ps s,
      fun hdisabled => Binarize.on_run_of_disabled hdisabled ps s⟩⟩

/-- Of five programs one is out of scope, one is fresh, one is recomputed, the tree of one has an
error, and that of one is missing. The trees then have no code, and nothing is done about it where
the stage for it is not enabled. -/
theorem run_accounts_for_programs_mixed :
    let fail : Tree → Tree := fun t => t.addError ⟨.error, "odd", none, none⟩
    let l : Layout := ⟨⟨"out"⟩, ⟨"cache"⟩⟩
    let stage : Optimize := ⟨(Train.mk [] [] none).optimization, {}, l⟩
    let coder (enabled : Bool) : Binarize := ⟨Train.mk [] [] none, { enabled := enabled }, l⟩
    let program (name : String) : Program :=
      { name := name, source := ⟨name ++ ".eo"⟩, intermediate := ⟨"in/" ++ name ++ ".json"⟩ }
    let test := { program "t" with scope := .test }
    let fresh := { program "f" with optimized := some ⟨"in/f.json"⟩ }
    let ps := [test, fresh, program "a", program "e", program "x"]
    let a' := { program "a" with optimized := some ⟨"out/03-optimize/a.json"⟩ }
    let inputs : Entry := .directory [("a.json", .file (Tree.ofName "a").render.toUTF8 1),
      ("e.json", .file (fail (Tree.ofName "e")).render.toUTF8 1),
      ("f.json", .file (Tree.ofName "f").render.toUTF8 1)] 1
    let s : Site := { files := ⟨.directory [("work", .directory [("in", inputs)] 1)] 1, ["work"], 5⟩ }
    let missing : WorkError := .tree (.io ⟨"in/x.json"⟩ .notFound)
    ((stage.pass ps).on s).1 = .ok [⟨test, .outOfScope⟩, ⟨fresh, .skipped⟩,
      ⟨a', .worked (.ok .recomputed)⟩, ⟨program "e", .worked (.ok .withheld)⟩,
      ⟨program "x", .worked (.error missing)⟩] ∧
    ((stage.run ps).on s).1.map (·.1) = .ok ⟨4, 1, 1, 1, [⟨"x", missing⟩]⟩ ∧
    Concludes (fun p => p.scope = stage.config.scope) stage.record
      [l.optimizeDir, l.optimizedCacheDir] ps s ((stage.pass ps).on s).1 ((stage.run ps).on s) ∧
    Concludes (coder true).inScope (coder true).record [l.binarizeDir, l.binarizedCacheDir] ps s
      (((coder true).pass ps).on s).1 (((coder true).run ps).on s) ∧
    ∃ s', s'.files = s.files ∧
      ((coder false).run ps).on s = (.ok ({ total := 1, skipped := 1 }, ps), s') := by
  intro fail l stage coder program test fresh ps a' inputs s missing
  have hpass : ((stage.pass ps).on s).1 = .ok [⟨test, .outOfScope⟩, ⟨fresh, .skipped⟩,
      ⟨a', .worked (.ok .recomputed)⟩, ⟨program "e", .worked (.ok .withheld)⟩,
      ⟨program "x", .worked (.error missing)⟩] := by decide +kernel
  have hrun : ((stage.run ps).on s).1.map (·.1) = .ok ⟨4, 1, 1, 1, [⟨"x", missing⟩]⟩ := by
    obtain ⟨s', -, hrun⟩ := stage.on_run ps s
    rw [hrun, hpass]
    rfl
  obtain ⟨hoptimize, hbinarize⟩ := run_accounts_for_programs
  exact ⟨hpass, hrun, hoptimize stage ps s, (hbinarize (coder true) ps s).1 rfl,
    (hbinarize (coder false) ps s).2 rfl⟩

end Trainyard.Stage
