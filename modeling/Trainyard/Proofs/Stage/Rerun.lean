import Trainyard.Proofs.FileSystem.Lasting
import Trainyard.Proofs.Stage.Confine

/-!
# Running a stage again

A stage goes by times alone: a program is fresh if its output is there and no input is newer. A
run gives the outputs that it writes the present time and leaves the others, so what it skipped
or recomputed is fresh after it, as long as it keeps away from the inputs. The next run then
finds its directories made and nothing to do.
-/

set_option autoImplicit false

namespace Trainyard

namespace FileSystem

structure Untouched (fs fs' : FileSystem) (p : Path) : Prop where
  way : ∀ k ∈ p.way fs.working, fs'.item? k = fs.item? k
  mark : fs'.mark? (p.key fs.working) = fs.mark? (p.key fs.working)

variable {writes : Writes} {fs fs₀ fs' : FileSystem} {p : Path}

theorem Untouched.modified? (h : Untouched fs fs' p) (hworking : fs'.working = fs.working) :
    fs'.modified? p = fs.modified? p :=
  modified?_congr hworking (view_congr hworking h.way) fun _ => h.mark

theorem mark?_congr {k : Key} (h : fs'.item? k = fs.item? k)
    (hdir : fs.item? k ≠ some .directory) : fs'.mark? k = fs.mark? k := by
  rw [item?_eq_map_mark?, item?_eq_map_mark?] at h
  rw [item?_eq_map_mark?] at hdir
  cases hm : fs.mark? k with
  | none => simpa [hm] using h
  | some m =>
    cases m with
    | directory t => simp [hm] at hdir
    | file b t =>
      rw [hm, Option.map_some, Option.map_eq_some_iff] at h
      obtain ⟨m', hm', hitem⟩ := h
      cases m' with
      | directory t' => simp at hitem
      | file b' t' =>
        cases hitem
        exact hm'

theorem item?_between {k : Key} (he : Evolves (fun _ _ => False) fs fs₀)
    (he' : Evolves writes fs₀ fs') (h : fs'.item? k = fs.item? k) : fs₀.item? k = fs.item? k := by
  rcases he.item k with hsame | ⟨hnone, hmade⟩ | ⟨-, b, hfalse, -⟩
  · exact hsame
  · rw [he'.directory hmade, hnone] at h
    simp at h
  · exact hfalse.elim

theorem Untouched.between (h : Untouched fs fs' p) (he : Evolves (fun _ _ => False) fs fs₀)
    (he' : Evolves writes fs₀ fs') : Untouched fs fs₀ p := by
  constructor
  · intro k hk
    exact item?_between he he' (h.way k hk)
  · have hitem := item?_between he he' (item?_congr h.mark)
    by_cases hdir : fs.item? (p.key fs.working) = some .directory
    · rcases he.times _ hdir with hsame | hnow
      · exact hsame
      · -- a time that was set stays set
        have hend : fs'.mark? (p.key fs.working) = some (.directory fs.now) := by
          rcases he'.times _ (he.directory hdir) with hsame' | hnow'
          · rw [hsame', hnow]
          · rw [hnow', he.now]
        rw [hnow, ← hend, h.mark]
    · exact mark?_congr hitem hdir

end FileSystem

/-! ## Directories that are made -/

theorem Job.on_makeDirectories_again {ε : Type} {f g : OsError → ε} {dir : Path} {s s₀ s' : Site}
    {u : Unit} {writes : FileSystem.Writes} (hne : dir.isEmpty = false)
    (h : (Job.makeDirectories f dir).on s = (.ok u, s₀))
    (he : s₀.files.Evolves writes s'.files) (time : Nat) :
    (Job.makeDirectories g dir).on (s'.atTime time) = (.ok (), s'.atTime time) := by
  rw [Job.on_makeDirectories] at h
  rcases hmade : s.files.makeDirectories dir with ⟨made, fs⟩
  rw [hmade] at h
  cases made with
  | error e => simp at h
  | ok u' =>
    cases h
    obtain ⟨k, hview⟩ := FileSystem.view_of_makeDirectories hne hmade
    have hagain : (s'.atTime time).files.view dir = .ok (k, .directory) := he.view_directory hview
    rw [Job.on_makeDirectories, FileSystem.makeDirectories_of_view hagain]
    rfl

namespace Stage

theorem Scheme.on_prepare_again {S : Scheme} (hS : S.Tidy) {l : Layout} {ps ps' : List Program}
    {s s₀ s' : Site} {u : Unit} {writes : FileSystem.Writes}
    (h : (S.prepare l ps).on s = (.ok u, s₀)) (he : s₀.files.Evolves writes s'.files)
    (hany : ps'.any (·.digest.isSome) = ps.any (·.digest.isSome)) (time : Nat) :
    (S.prepare l ps').on (s'.atTime time) = (.ok (), s'.atTime time) := by
  obtain ⟨⟨⟩, s₁, htarget, hcache⟩ := Job.on_bind_ok h
  have hlater : s₁.files.Evolves writes s'.files := by
    have hmore : s₁.files.Evolves writes s₀.files := by
      split at hcache
      · have hmakes := FileSystem.evolves_makeDirectories (l.cache.child S.entries) s₁.files
        rw [Job.on_makeDirectories] at hcache
        rw [← (Prod.mk.inj hcache).2]
        exact hmakes.mono fun _ _ hfalse => hfalse.elim
      · cases hcache
        exact .refl _ _
    exact hmore.trans he
  rw [Scheme.prepare, Job.on_bind,
    Job.on_makeDirectories_again (Path.isEmpty_child hS.outputs.plain _) htarget hlater, hany]
  by_cases hdigest : ps.any (·.digest.isSome) = true
  · rw [if_pos hdigest] at hcache
    simp only [if_pos hdigest]
    exact Job.on_makeDirectories_again (Path.isEmpty_child hS.entries.plain _) hcache he time
  · simp only [if_neg hdigest, Job.on_pure]

/-! ## Programs that are fresh -/

/-- How a stage tells what is fresh: the output of a program is there, and none of its inputs is
newer. A task that recomputes leaves the present time on the output. -/
structure Timed (inScope : Program → Bool) (output : Program → Option Path)
    (inputs : Program → List Path) (standing : FileSystem → Program → Standing)
    (task : Program → Job WorkError (Outcome × Program)) : Prop where
  fresh : ∀ fs p, standing fs p = .fresh ↔ inScope p = true ∧ ∃ o ∈ output p, ∃ out,
    fs.modified? o = some out ∧ ∀ i ∈ inputs p, ∀ t, fs.modified? i = some t → t ≤ out
  done : ∀ p s p' s', (task p).on s = (.ok (.recomputed, p'), s') →
    inScope p' = inScope p ∧ inputs p' = inputs p ∧
      ∃ o ∈ output p', s'.files.modified? o = some s'.files.now
  task : ∀ p (s : Site), s.files.Evolves (fun _ _ => True) ((task p).on s).2.files

def Fate.IsCurrent (fate : Fate) : Prop := fate = .skipped ∨ fate = .worked (.ok .recomputed)

section Fresh

variable {inScope : Program → Bool} {record : Program → Place → Program}
  {output : Program → Option Path} {inputs : Program → List Path}
  {standing : FileSystem → Program → Standing}
  {task : Program → Job WorkError (Outcome × Program)} {fs fs' : FileSystem} {p : Program}

/-- An output that is fresh stays fresh while the inputs stay as they are. -/
theorem Timed.fresh_of_fresh (h : Timed inScope output inputs standing task)
    (he : fs.Evolves (fun _ _ => True) fs') (hfresh : standing fs p = .fresh)
    (hinputs : ∀ i ∈ inputs p, fs'.modified? i = fs.modified? i ∧
      ∀ t, fs.modified? i = some t → t ≤ fs.now) : standing fs' p = .fresh := by
  obtain ⟨hscope, o, ho, out, hout, hold⟩ := (h.fresh fs p).1 hfresh
  obtain ⟨out', hout', htime⟩ := he.modified? hout
  refine (h.fresh fs' p).2 ⟨hscope, o, ho, out', hout', fun i hi t ht => ?_⟩
  obtain ⟨hsame, hpast⟩ := hinputs i hi
  rw [hsame] at ht
  rcases htime with rfl | rfl
  · exact hold i hi t ht
  · exact hpast t ht

theorem Timed.fresh_of_recomputed (h : Timed inScope output inputs standing task) {s s' : Site}
    {p' : Program} (hscope : inScope p = true)
    (htask : (task p).on s = (.ok (.recomputed, p'), s'))
    (he : s'.files.Evolves (fun _ _ => True) fs')
    (hinputs : ∀ i ∈ inputs p, ∀ t, fs'.modified? i = some t → t ≤ s'.files.now) :
    standing fs' p' = .fresh := by
  obtain ⟨hsame, hreads, o, ho, hout⟩ := h.done p s p' s' htask
  obtain ⟨out, hout', htime⟩ := he.modified? hout
  have hnow : out = s'.files.now := htime.elim id id
  rw [hnow] at hout'
  refine (h.fresh fs' p').2 ⟨hsame.trans hscope, o, ho, _, hout', fun i hi t ht => ?_⟩
  rw [hreads] at hi
  exact hinputs i hi t ht

theorem Timed.fresh_of_lineOf (h : Timed inScope output inputs standing task)
    (hkeeps : Keeps inScope record standing task) {s : Site}
    (hbefore : fs.Evolves (fun _ _ => True) s.files)
    (hafter : (filesOf task s p (standing fs p)).Evolves (fun _ _ => True) fs')
    (hinputs : ∀ i ∈ inputs p, fs'.modified? i = fs.modified? i ∧
      ∀ t, fs.modified? i = some t → t ≤ fs.now)
    (hcurrent : (lineOf p (standing fs p) ((task p).on s).1).fate.IsCurrent) :
    standing fs' (lineOf p (standing fs p) ((task p).on s).1).program = .fresh := by
  cases hstanding : standing fs p with
  | outOfScope =>
    rw [hstanding] at hcurrent
    rcases hcurrent with hfate | hfate <;> simp [lineOf] at hfate
  | fresh =>
    rw [hstanding, filesOf, if_neg (by decide)] at hafter
    exact h.fresh_of_fresh (hbefore.trans hafter) hstanding hinputs
  | due =>
    rw [hstanding, filesOf, if_pos rfl] at hafter
    rw [hstanding] at hcurrent
    have hscope : inScope p = true := by
      by_contra hout
      rw [Bool.not_eq_true] at hout
      rw [(hkeeps.scope fs p).2 hout] at hstanding
      cases hstanding
    rcases htask : (task p).on s with ⟨e | ⟨outcome, p'⟩, s'⟩
    · rw [htask] at hcurrent
      rcases hcurrent with hfate | hfate <;> simp [lineOf] at hfate
    · rw [htask] at hcurrent hafter
      obtain rfl : outcome = .recomputed := by
        rcases hcurrent with hfate | hfate
        · simp [lineOf] at hfate
        · simpa [lineOf] using hfate
      have hnow : s'.files.now = fs.now := by
        have hwork := h.task p s
        rw [htask] at hwork
        exact hwork.now.trans hbefore.now
      refine h.fresh_of_recomputed hscope htask hafter fun i hi t ht => ?_
      obtain ⟨hsame, hpast⟩ := hinputs i hi
      rw [hnow]
      exact hpast t (hsame ▸ ht)

end Fresh

/-! ## Runs that have nothing to do -/

section Idle

def Line.again (line : Line) : Line :=
  ⟨line.program, if line.fate = .outOfScope then .outOfScope else .skipped⟩

theorem on_execute_idle (task : Program → Job WorkError (Outcome × Program))
    (standing : Program → Standing) (lines : Ledger) (s : Site)
    (h : ∀ line ∈ lines, standing line.program =
      if line.fate = .outOfScope then .outOfScope else .fresh) :
    (execute task (Plan.make standing lines.programs)).on s = (.ok (lines.map Line.again), s) := by
  induction lines with
  | nil => rfl
  | cons line lines ih =>
    rw [List.forall_mem_cons] at h
    have hrest := ih h.2
    have hsettle : (settle task line.program (standing line.program)).on s =
        (.ok line.again, s) := by
      rw [h.1, Line.again]
      by_cases hfate : line.fate = .outOfScope
      · rw [if_pos hfate, if_pos hfate]
        rfl
      · rw [if_neg hfate, if_neg hfate]
        rfl
    show (execute task ((line.program, standing line.program) ::
      Plan.make standing (Ledger.programs lines))).on s = _
    simp only [execute, Job.on_bind, hsettle, hrest, Job.on_pure, List.map_cons]

theorem report_again (l : Ledger) :
    Ledger.report (l.map Line.again) = { total := l.report.total, skipped := l.report.total } := by
  have hfate (line : Line) : line.again.fate ≠ .outOfScope ↔ line.fate ≠ .outOfScope := by
    by_cases hout : line.fate = .outOfScope <;> simp [Line.again, hout]
  have hskipped (line : Line) : line.again.fate = .skipped ↔ line.fate ≠ .outOfScope := by
    by_cases hout : line.fate = .outOfScope <;> simp [Line.again, hout]
  have hworked (line : Line) (x : Except WorkError Outcome) : line.again.fate ≠ .worked x := by
    by_cases hout : line.fate = .outOfScope <;> simp [Line.again, hout]
  have hfailure (line : Line) : line.again.failure? = none := by
    by_cases hout : line.fate = .outOfScope <;> simp [Line.again, Line.failure?, hout]
  obtain ⟨htotal, hskip, hrecomputed, hwithheld, hfailures⟩ :=
    Ledger.counts_report (l.map Line.again)
  rw [(Ledger.counts_report l).total]
  generalize Ledger.report (l.map Line.again) = r at *
  obtain ⟨total, skipped, recomputed, withheld, failures⟩ := r
  simp only [List.countP_map, Function.comp_def, hfate] at htotal
  simp only [List.countP_map, Function.comp_def, hskipped] at hskip
  simp only [List.countP_map, Function.comp_def, hworked, decide_false, List.countP_false]
    at hrecomputed hwithheld
  simp only [List.filterMap_map, Function.comp_def, hfailure, List.filterMap_none] at hfailures
  simp [htotal, hskip, hrecomputed, hwithheld, hfailures]

theorem isCurrent_of_complete {l : Ledger} (hfailures : l.report.failures = [])
    (hwithheld : l.report.withheld = 0) {line : Line} (hline : line ∈ l)
    (hscope : line.fate ≠ .outOfScope) : line.fate.IsCurrent := by
  have hcounts := l.counts_report
  rw [hcounts.failures, List.filterMap_eq_nil_iff] at hfailures
  rw [hcounts.withheld, List.countP_eq_zero] at hwithheld
  have hfailure := hfailures line hline
  have hkept := hwithheld line hline
  obtain ⟨p, fate⟩ := line
  rcases fate with _ | _ | e | _ | _
  · exact absurd rfl hscope
  · exact .inl rfl
  · simp [Line.failure?] at hfailure
  · exact .inr rfl
  · simp at hkept

end Idle

/-! ## Two runs -/

structure Passes (S : Scheme) (l : Layout) (standing : FileSystem → Program → Standing)
    (task : Program → Job WorkError (Outcome × Program))
    (pass : List Program → Job WorkError Ledger)
    (run : List Program → Job WorkError (Report × List Program)) : Prop where
  unprepared : ∀ ps s e s', (S.prepare l ps).on s = (.error e, s') →
    ∃ s₁, (run ps).on s = (.error e, s₁)
  prepared : ∀ ps s u s', (S.prepare l ps).on s = (.ok u, s') →
    ∃ s₁ : Site, s₁.files = s'.files ∧
      (pass ps).on s = (execute task (Plan.make (standing s₁.files) ps)).on s₁
  settles : ∀ ps s ledger s', (pass ps).on s = (.ok ledger, s') →
    ∃ s₁ : Site, s₁.files = s'.files ∧ Settles (pass ps) (run ps) s ledger s₁

/-- A run and one right after it. The second skips all programs that the first skipped or
recomputed. If these are all, it does nothing else. -/
def Rests (pass : List Program → Job WorkError Ledger)
    (run : List Program → Job WorkError (Report × List Program)) (ps : List Program)
    (s s₁ : Site) (time : Nat) : Prop :=
  ∃ (first second : Ledger) (s₂ : Site), Settles (pass ps) (run ps) s first s₁ ∧
    Settles (pass first.programs) (run first.programs) (s₁.atTime time) second s₂ ∧
    List.Forall₂ (fun line line' => line.fate.IsCurrent → line' = ⟨line.program, .skipped⟩)
      first second ∧
    (first.report.failures = [] → first.report.withheld = 0 →
      second.report = { total := first.report.total, skipped := first.report.total } ∧
      second.programs = first.programs ∧ s₂.files = (s₁.atTime time).files)

section Rests

variable {S : Scheme} {l : Layout} {inScope : Program → Bool}
  {record : Program → Place → Program} {output : Program → Option Path}
  {inputs : Program → List Path} {standing : FileSystem → Program → Standing}
  {task : Program → Job WorkError (Outcome × Program)}
  {pass : List Program → Job WorkError Ledger}
  {run : List Program → Job WorkError (Report × List Program)} {ps : List Program}

theorem Passes.prepared_of_run (h : Passes S l standing task pass run) {s s' : Site}
    {answer : Report × List Program} (hrun : (run ps).on s = (.ok answer, s')) :
    ∃ u s₀, (S.prepare l ps).on s = (.ok u, s₀) := by
  rcases hprepare : (S.prepare l ps).on s with ⟨e | u, s₀⟩
  · obtain ⟨s₁, hfail⟩ := h.unprepared ps s e s₀ hprepare
    rw [hrun] at hfail
    cases hfail
  · exact ⟨u, s₀, rfl⟩

/-- With its directories made a run settles its programs one after the other. Whatever all tasks
do to the files leads to the site of each of them and from there to the end. -/
theorem Passes.settles_of_prepare (h : Passes S l standing task pass run)
    {R : FileSystem → FileSystem → Prop} (hR : Job.Composes R) (htask : ∀ p, Job.Obeys R (task p))
    {s s₀ : Site} {u : Unit} (hprepare : (S.prepare l ps).on s = (.ok u, s₀)) :
    ∃ (start done s' : Site) (ledger : Ledger), start.files = s₀.files ∧
      (execute task (Plan.make (standing start.files) ps)).on start = (.ok ledger, done) ∧
      s'.files = done.files ∧ Settles (pass ps) (run ps) s ledger s' ∧ R start.files s'.files ∧
      List.Forall₂ (fun p line => ∃ s₁ : Site, R start.files s₁.files ∧
        line = lineOf p (standing start.files p) ((task p).on s₁).1 ∧
        R (filesOf task s₁ p (standing start.files p)) s'.files) ps ledger := by
  obtain ⟨start, hstart, hpass⟩ := h.prepared ps s u s₀ hprepare
  obtain ⟨ledger, done, hexecute, hwork, hlines⟩ :=
    on_execute_lines hR htask (Plan.make (standing start.files) ps) start
  rw [hexecute] at hpass
  obtain ⟨s', hdone, hsettles⟩ := h.settles ps s ledger done hpass
  rw [← hdone] at hwork hlines
  exact ⟨start, done, s', ledger, hstart, hexecute, hdone, hsettles, hwork,
    List.forall₂_map_left_iff.1 hlines⟩

theorem Passes.lines_of_settles (h : Passes S l standing task pass run)
    {writes : FileSystem.Writes} {s s' : Site} {ledger : Ledger}
    (htask : ∀ p, Job.Within s.files.working writes (task p))
    (hsettles : Settles (pass ps) (run ps) s ledger s') :
    ∃ s₀ : Site, List.Forall₂ (fun p line => ∃ s₁ : Site, s.files.Evolves writes s₁.files ∧
      s₀.files.Evolves writes s₁.files ∧
      line = lineOf p (standing s₀.files p) ((task p).on s₁).1 ∧
      (filesOf task s₁ p (standing s₀.files p)).Evolves writes s'.files) ps ledger := by
  obtain ⟨u, made, hprepare⟩ := h.prepared_of_run hsettles.run
  obtain ⟨s₀, -, s₃, ledger', hfiles₀, -, -, hsettles', -, hlines⟩ := h.settles_of_prepare
    (Job.composes_evolves s.files.working writes) htask hprepare
  obtain rfl : ledger' = ledger := Except.ok.inj (hsettles'.pass.symm.trans hsettles.pass)
  obtain rfl : s₃ = s' := (Prod.mk.inj (hsettles'.run.symm.trans hsettles.run)).2
  have hmade : s.files.Evolves writes s₀.files := by
    have hevolves := S.evolves_on_prepare l ps s
    rw [hprepare, ← hfiles₀] at hevolves
    exact hevolves.mono fun _ _ h => h.elim
  refine ⟨s₀, hlines.imp fun p line hline => ?_⟩
  obtain ⟨s₁, hbefore, hline, hafter⟩ := hline
  have hbefore := hbefore hmade.working
  have hworking : s₁.files.working = s.files.working := hbefore.working.trans hmade.working
  have hstep : s₁.files.Evolves writes (filesOf task s₁ p (standing s₀.files p)) := by
    rw [filesOf]
    split
    · exact htask p s₁ hworking
    · exact .refl writes _
  exact ⟨s₁, hmade.trans hbefore, hbefore, hline, hafter (hstep.working.trans hworking)⟩

theorem Passes.worked_of_settles (h : Passes S l standing task pass run)
    {writes : FileSystem.Writes} {s s' : Site} {ledger : Ledger}
    (htask : ∀ p, Job.Within s.files.working writes (task p))
    (hsettles : Settles (pass ps) (run ps) s ledger s') {outcome : Outcome} :
    ∀ line ∈ ledger, line.fate = .worked (.ok outcome) →
      ∃ p s₁ s₂, (task p).on s₁ = (.ok (outcome, line.program), s₂) ∧
        s.files.Evolves writes s₂.files ∧ s₂.files.Evolves writes s'.files := by
  obtain ⟨s₀, hlines⟩ := h.lines_of_settles htask hsettles
  refine forall_mem_lines hlines ?_
  rintro p - line ⟨s₁, hbefore, -, hline, hafter⟩ hfate
  rw [hline] at hfate
  obtain ⟨hdue, hdone⟩ := of_lineOf_worked hfate
  rw [← hline] at hdone
  rw [hdue, filesOf, if_pos rfl] at hafter
  exact ⟨p, s₁, _, Prod.ext hdone rfl, hbefore.trans (htask p s₁ hbefore.working), hafter⟩

theorem any_digest {ledger : Ledger} (hdigest : ∀ p place, (record p place).digest = p.digest)
    (h : List.Forall₂ (Treats inScope record) ps ledger) :
    ledger.programs.any (·.digest.isSome) = ps.any (·.digest.isSome) := by
  induction h with
  | nil => rfl
  | @cons p line ps ledger hline _ ih =>
    have hsame : line.program.digest = p.digest := by
      by_cases hfate : line.fate = .worked (.ok .recomputed)
      · obtain ⟨place, -, hrecord⟩ := hline.recorded hfate
        rw [hrecord, hdigest]
      · rw [hline.kept hfate]
    show (line.program.digest.isSome || (Ledger.programs ledger).any (·.digest.isSome)) = _
    rw [hsame, ih]
    rfl

/-- After a run all that was skipped or recomputed is fresh, and what was out of scope still
is. -/
theorem Timed.fresh_after {ledger : Ledger} {fs fs' : FileSystem}
    (h : Timed inScope output inputs standing task) (hkeeps : Keeps inScope record standing task)
    (hlines : List.Forall₂ (fun p line => ∃ s : Site, fs.Evolves (fun _ _ => True) s.files ∧
      line = lineOf p (standing fs p) ((task p).on s).1 ∧
      (filesOf task s p (standing fs p)).Evolves (fun _ _ => True) fs') ps ledger)
    (hinputs : ∀ p ∈ ps, ∀ i ∈ inputs p, fs'.modified? i = fs.modified? i ∧
      ∀ t, fs.modified? i = some t → t ≤ fs.now) :
    ∀ line ∈ ledger, (line.fate.IsCurrent → standing fs' line.program = .fresh) ∧
      (line.fate = .outOfScope → standing fs' line.program = .outOfScope) := by
  induction hlines with
  | nil => simp
  | @cons p line ps ledger hline _ ih =>
    rw [List.forall_mem_cons] at hinputs
    rw [List.forall_mem_cons]
    refine ⟨?_, ih hinputs.2⟩
    obtain ⟨s, hbefore, rfl, hafter⟩ := hline
    constructor
    · exact h.fresh_of_lineOf hkeeps hbefore hafter hinputs.1
    · intro hfate
      have htreats := hkeeps.treats_lineOf fs p s
      have hscope := htreats.scope.1 hfate
      rw [htreats.kept (by rw [hfate]; simp)]
      exact (hkeeps.scope fs' p).2 hscope

/-- A run on programs that are fresh where they were skipped or recomputed before skips these. If
no others are in scope, it works on none. -/
theorem Passes.rests_of_fresh (h : Passes S l standing task pass run) {s s₁ s₀ : Site} {u : Unit}
    {first : Ledger} {time : Nat} (hfirst : Settles (pass ps) (run ps) s first s₁)
    (hprepare : (S.prepare l first.programs).on (s₁.atTime time) = (.ok u, s₀))
    (hmade : s₀.files = (s₁.atTime time).files)
    (hstanding : ∀ line ∈ first,
      (line.fate.IsCurrent → standing s₀.files line.program = .fresh) ∧
      (line.fate = .outOfScope → standing s₀.files line.program = .outOfScope)) :
    Rests pass run ps s s₁ time := by
  have hany : ∀ p, Job.Obeys (fun _ _ => True) (task p) := fun _ _ => trivial
  obtain ⟨start, done, s₂, second, hstart, hexecute, hdone, hsecond, -, hlines⟩ :=
    h.settles_of_prepare ⟨fun _ => trivial, fun _ _ => trivial⟩ hany hprepare
  rw [← hstart] at hstanding hmade
  refine ⟨first, second, s₂, hfirst, hsecond, ?_, fun hfailures hwithheld => ?_⟩
  · have hlines := List.forall₂_map_left_iff.1 hlines
    refine ((List.forall₂_and_left first second).2 ⟨hstanding, hlines⟩).imp ?_
    rintro line line' ⟨⟨hfresh, -⟩, s₃, -, rfl, -⟩ hcurrent
    rw [hfresh hcurrent]
    rfl
  · have hidle := on_execute_idle task (standing start.files) first start fun line hline => by
      by_cases hfate : line.fate = .outOfScope
      · rw [if_pos hfate]
        exact (hstanding line hline).2 hfate
      · rw [if_neg hfate]
        exact (hstanding line hline).1 (isCurrent_of_complete hfailures hwithheld hline hfate)
    rw [hidle] at hexecute
    cases hexecute
    refine ⟨report_again first, ?_, hdone.trans hmade⟩
    simp [Ledger.programs, Line.again]

theorem Passes.rests (hpasses : Passes S l standing task pass run) (hS : S.Tidy)
    (hkeeps : Keeps inScope record standing task)
    (htimed : Timed inScope output inputs standing task)
    (hdigest : ∀ p place, (record p place).digest = p.digest) {s s₁ : Site}
    {answer : Report × List Program} (hrun : (run ps).on s = (.ok answer, s₁))
    (hinputs : ∀ p ∈ ps, ∀ i ∈ inputs p, s.files.Untouched s₁.files i ∧
      ∀ t, s.files.modified? i = some t → t ≤ s.files.now) (time : Nat) :
    Rests pass run ps s s₁ time := by
  obtain ⟨u, s₀, hprepare⟩ := hpasses.prepared_of_run hrun
  obtain ⟨start, -, s₁', first, hstart, -, -, hfirst, hwork, hlines⟩ :=
    hpasses.settles_of_prepare (R := fun fs fs' => fs.Evolves (fun _ _ => True) fs')
      ⟨fun fs => .refl _ fs, fun hab hbc => hab.trans hbc⟩ htimed.task hprepare
  obtain rfl : s₁ = s₁' := (Prod.mk.inj (hrun.symm.trans hfirst.run)).2
  have htreats : List.Forall₂ (Treats inScope record) ps first := by
    refine hlines.imp fun p line hline => ?_
    obtain ⟨s₂, -, rfl, -⟩ := hline
    exact hkeeps.treats_lineOf _ p s₂
  have hmade : s.files.Evolves (fun _ _ => False) start.files := by
    have hevolves := S.evolves_on_prepare l ps s
    rwa [hprepare, ← hstart] at hevolves
  have hafter := htimed.fresh_after hkeeps hlines fun p hp i hi => by
    obtain ⟨huntouched, hpast⟩ := hinputs p hp i hi
    have hworking := hwork.working.trans hmade.working
    rw [huntouched.modified? hworking,
      (huntouched.between hmade hwork).modified? hmade.working, hmade.now]
    exact ⟨rfl, hpast⟩
  have hagain := Scheme.on_prepare_again hS hprepare (hstart ▸ hwork)
    (any_digest hdigest htreats) time
  -- the second run comes at another time, on which it does not depend what is fresh
  refine hpasses.rests_of_fresh hfirst hagain rfl fun line hline => ?_
  obtain ⟨hfresh, hout⟩ := hafter line hline
  constructor
  · intro hcurrent
    exact (htimed.fresh _ _).2 ((htimed.fresh s₁.files _).1 (hfresh hcurrent))
  · intro hfate
    exact (hkeeps.scope _ _).2 ((hkeeps.scope s₁.files _).1 (hout hfate))

end Rests

namespace Optimize

theorem passes (stage : Optimize) : Passes (scheme []) stage.layout stage.standing stage.task
    stage.pass stage.run where
  unprepared ps s e s' h := by
    obtain ⟨s₁, -, hrun⟩ := on_run_of_unprepared h
    exact ⟨s₁, hrun⟩
  prepared ps s u s' h := on_pass_of_prepare h
  settles ps s ledger s' h := settles_of_on_pass h

theorem standing_eq_fresh (stage : Optimize) (fs : FileSystem) (p : Program) :
    stage.standing fs p = .fresh ↔ decide (p.scope = stage.config.scope) = true ∧
      ∃ o ∈ p.optimized, ∃ out, fs.modified? o = some out ∧
        ∀ i ∈ [p.intermediate], ∀ t, fs.modified? i = some t → t ≤ out := by
  rw [standing, Program.needsOptimization]
  by_cases hscope : p.scope = stage.config.scope
  · cases p.optimized with
    | none => simp [hscope]
    | some o =>
      cases hout : fs.modified? o with
      | none => simp [hscope, hout]
      | some out => cases hin : fs.modified? p.intermediate <;> simp [hscope, hout, hin]
  · simp [hscope]

theorem timed (tr : Train) (c : Config.Optimize) (l : Layout) :
    Timed (fun p => p.scope = c.scope) Program.optimized (fun p => [p.intermediate])
      (Optimize.mk tr.optimization c l).standing (Optimize.mk tr.optimization c l).task where
  fresh := standing_eq_fresh ⟨tr.optimization, c, l⟩
  done p s p' s' h := by
    obtain ⟨place, tree, result, s₀, s₁, -, -, hdeliver⟩ := on_task_ok h
    rcases on_deliver_ok hdeliver with ⟨-, rfl, -, s₂, u, hsave, hfiles⟩ | ⟨houtcome, -⟩
    · refine ⟨rfl, rfl, _, rfl, ?_⟩
      have hnow : s₂.files.now = s₁.files.now := by
        have hwithin : Job.Within s₁.files.working (fun _ _ => True)
            (result.save (Optimize.output ⟨tr.optimization, c, l⟩ place)) :=
          Tree.within_save trivial
        have hsaved := hwithin s₁ rfl
        rw [hsave] at hsaved
        exact hsaved.now
      rw [hfiles, hnow]
      exact FileSystem.modified?_eq_some.2 ⟨_, Tree.on_save_ok hsave, rfl⟩
    · cases houtcome
  task p s := by
    have hwithin : Job.Within s.files.working (fun _ _ => True)
        ((Optimize.mk tr.optimization c l).task p) :=
      within_task (fun t => within_applyTo (fun _ _ _ _ _ _ _ => trivial)
        fun _ _ _ _ _ _ _ _ => trivial) fun _ _ _ => trivial
    exact hwithin s rfl

end Optimize

namespace Binarize

theorem passes (stage : Binarize) (henabled : stage.config.enabled = true) :
    Passes (scheme []) stage.layout stage.standing stage.task stage.pass stage.run where
  unprepared ps s e s' h := by
    obtain ⟨s₁, -, hrun⟩ := on_run_of_unprepared henabled h
    exact ⟨s₁, hrun⟩
  prepared ps s u s' h := on_pass_of_prepare h
  settles ps s ledger s' h := settles_of_on_pass henabled h

theorem timed (stage : Binarize) :
    Timed stage.inScope stage.target inputs stage.standing stage.task where
  fresh := standing_eq_fresh stage
  done p s p' s' h := by
    obtain ⟨-, place, code, s₁, hplace, rfl, hwrite⟩ := on_task_ok h
    refine ⟨rfl, rfl, stage.codeOutput place, ?_, ?_⟩
    · show stage.codeOutput place ∈ p.place.toOption.map stage.codeOutput
      rw [hplace]
      rfl
    · rw [(FileSystem.write_ok hwrite).1.now]
      exact FileSystem.modified?_eq_some.2 ⟨_, FileSystem.stat_write hwrite, rfl⟩
  task p s := by
    have hwithin : Job.Within s.files.working (fun _ _ => True) (stage.task p) :=
      within_task (fun t => within_applyTo (fun _ _ _ _ _ _ _ => trivial)
        fun _ _ _ _ _ _ _ _ => trivial) fun _ _ _ _ _ => trivial
    exact hwithin s rfl

end Binarize

/-! ## The second run -/

/-- A run keeps away from the inputs of its programs, and none of them is newer than the run. -/
def Undisturbed (inputs : Program → List Path) (ps : List Program) (s s₁ : Site) : Prop :=
  ∀ p ∈ ps, ∀ i ∈ inputs p, s.files.Untouched s₁.files i ∧
    ∀ t, s.files.modified? i = some t → t ≤ s.files.now

/-- A run right after another one has nothing to do with what that one skipped or recomputed, if
inputs are neither from the future nor touched by the first run. Without failures and withheld
results it writes nothing, makes nothing, and leaves all records. -/
theorem run_again_rests :
    (∀ (tr : Train) (c : Config.Optimize) (l : Layout) (ps : List Program) (s s₁ : Site)
      (answer : Report × List Program) (time : Nat),
      ((Optimize.mk tr.optimization c l).run ps).on s = (.ok answer, s₁) →
      Undisturbed (fun p => [p.intermediate]) ps s s₁ →
      Rests (Optimize.mk tr.optimization c l).pass (Optimize.mk tr.optimization c l).run ps s s₁
        time) ∧
    ∀ (stage : Binarize) (ps : List Program) (s s₁ : Site) (answer : Report × List Program)
      (time : Nat), stage.config.enabled = true → (stage.run ps).on s = (.ok answer, s₁) →
      Undisturbed Binarize.inputs ps s s₁ → Rests stage.pass stage.run ps s s₁ time := by
  constructor
  · intro tr c l ps s s₁ answer time hrun hinputs
    exact (Optimize.passes _).rests (Optimize.tidy_scheme []) (Optimize.keeps _)
      (Optimize.timed tr c l) (fun _ _ => rfl) hrun hinputs time
  · intro stage ps s s₁ answer time henabled hrun hinputs
    exact (stage.passes henabled).rests (Binarize.tidy_scheme []) stage.keeps stage.timed
      (fun _ _ => rfl) hrun hinputs time

theorem Rests.on_run {pass : List Program → Job WorkError Ledger}
    {run : List Program → Job WorkError (Report × List Program)} {ps ps' : List Program}
    {s s₁ : Site} {time : Nat} {r : Report} (h : Rests pass run ps s s₁ time)
    (hrun : (run ps).on s = (.ok (r, ps'), s₁)) (hfailures : r.failures = [])
    (hwithheld : r.withheld = 0) :
    ∃ s₂ : Site, s₂.files = (s₁.atTime time).files ∧ (run ps').on (s₁.atTime time) =
      (.ok ({ total := r.total, skipped := r.total }, ps'), s₂) := by
  obtain ⟨first, second, s₂, hfirst, hsecond, -, hidle⟩ := h
  obtain ⟨rfl, rfl⟩ : first.report = r ∧ first.programs = ps' := by
    simpa using (Prod.mk.inj (hfirst.run.symm.trans hrun)).1
  obtain ⟨hreport, hprograms, hfiles⟩ := hidle hfailures hwithheld
  refine ⟨s₂, hfiles, ?_⟩
  rw [hsecond.run, hreport, hprograms]

/-- One program has a digest and is worked on, one is fresh from the start. Both stages find
nothing to do when they run again. -/
theorem run_again_rests_two :
    let code : Step := ⟨"code", fun t => .ok (t.setAttribute Tree.codeKey "struct A;")⟩
    let l : Layout := ⟨⟨"out"⟩, ⟨"cache"⟩⟩
    let optimize : Optimize := ⟨(Train.mk [code] [] (some ⟨"steps"⟩)).optimization, {}, l⟩
    let binarize : Binarize := ⟨Train.mk [code] [] none, {}, l⟩
    let d : Digest := ⟨List.replicate 16 7, rfl⟩
    let a : Program :=
      { name := "a", source := ⟨"a.eo"⟩, intermediate := ⟨"in/a.json"⟩, digest := some d }
    let a' := { a with optimized := some ⟨"out/03-optimize/a.json"⟩ }
    let b : Program :=
      { name := "x.b", source := ⟨"b.eo"⟩, intermediate := ⟨"in/b.json"⟩,
        optimized := some ⟨"in/b.json"⟩ }
    let b' := { b with binarized := some ⟨"out/binarize/x/b.rs"⟩ }
    let inputs : Entry := .directory [("a.json", .file (Tree.ofName "a").render.toUTF8 5),
      ("b.json", .file (Tree.ofName "x.b").render.toUTF8 1)] 1
    let s : Site := { files := ⟨.directory [("work", .directory [("in", inputs)] 1)] 1, ["work"], 5⟩ }
    (∃ s₁ s₂ : Site, s₂.files = (s₁.atTime 9).files ∧
      (optimize.run [a, b]).on s =
        (.ok ({ total := 2, skipped := 1, recomputed := 1 }, [a', b]), s₁) ∧
      (optimize.run [a', b]).on (s₁.atTime 9) =
        (.ok ({ total := 2, skipped := 2 }, [a', b]), s₂)) ∧
    ∃ s₁ s₂ : Site, s₂.files = (s₁.atTime 9).files ∧
      (binarize.run [a, b]).on s = (.ok ({ total := 1, recomputed := 1 }, [a, b']), s₁) ∧
      (binarize.run [a, b']).on (s₁.atTime 9) =
        (.ok ({ total := 1, skipped := 1 }, [a, b']), s₂) := by
  intro code l optimize binarize d a a' b b' inputs s
  -- of files, equal items say as much as equal marks
  have hundisturbed {inputs : Program → List Path} {ps : List Program} {s₁ : Site}
      (h : ∀ p ∈ ps, ∀ i ∈ inputs p,
        (∀ k ∈ i.way s.files.working, s₁.files.item? k = s.files.item? k) ∧
        s₁.files.item? (i.key s.files.working) = s.files.item? (i.key s.files.working) ∧
        s.files.item? (i.key s.files.working) ≠ some .directory ∧
        ∀ t ∈ s.files.modified? i, t ≤ s.files.now) : Undisturbed inputs ps s s₁ :=
    fun p hp i hi =>
      have ⟨hway, hend, hfile, hpast⟩ := h p hp i hi
      ⟨⟨hway, FileSystem.mark?_congr hend hfile⟩, hpast⟩
  obtain ⟨hoptimize, hbinarize⟩ := run_again_rests
  constructor
  · have hall : ((optimize.run [a, b]).on s).1 =
          .ok ({ total := 2, skipped := 1, recomputed := 1 }, [a', b]) ∧
        ∀ p ∈ [a, b], ∀ i ∈ [p.intermediate], (∀ k ∈ i.way s.files.working,
          ((optimize.run [a, b]).on s).2.files.item? k = s.files.item? k) ∧
        ((optimize.run [a, b]).on s).2.files.item? (i.key s.files.working) =
          s.files.item? (i.key s.files.working) ∧
        s.files.item? (i.key s.files.working) ≠ some .directory ∧
        ∀ t ∈ s.files.modified? i, t ≤ s.files.now := by decide +kernel
    have hrun := Job.on_of_fst hall.1
    have hrests := hoptimize _ {} l [a, b] s _ _ 9 hrun (hundisturbed hall.2)
    obtain ⟨s₂, hfiles, hagain⟩ := hrests.on_run hrun rfl rfl
    exact ⟨_, s₂, hfiles, hrun, hagain⟩
  · have hall : ((binarize.run [a, b]).on s).1 =
          .ok ({ total := 1, recomputed := 1 }, [a, b']) ∧
        ∀ p ∈ [a, b], ∀ i ∈ Binarize.inputs p, (∀ k ∈ i.way s.files.working,
          ((binarize.run [a, b]).on s).2.files.item? k = s.files.item? k) ∧
        ((binarize.run [a, b]).on s).2.files.item? (i.key s.files.working) =
          s.files.item? (i.key s.files.working) ∧
        s.files.item? (i.key s.files.working) ≠ some .directory ∧
        ∀ t ∈ s.files.modified? i, t ≤ s.files.now := by decide +kernel
    have hrun := Job.on_of_fst hall.1
    have hrests := hbinarize binarize [a, b] s _ _ 9 rfl hrun (hundisturbed hall.2)
    obtain ⟨s₂, hfiles, hagain⟩ := hrests.on_run hrun rfl rfl
    exact ⟨_, s₂, hfiles, hrun, hagain⟩

/-- The inputs must be reached past all that is made. A path may make a detour through a directory
that the first run makes; then the second run finds a newer input. -/
theorem run_again_may_work :
    let l : Layout := ⟨⟨"out"⟩, ⟨"cache"⟩⟩
    let stage : Optimize := ⟨(Train.mk [] [] none).optimization, {}, l⟩
    let a : Program :=
      { name := "a", source := ⟨"a.eo"⟩,
        intermediate := ⟨"out/03-optimize/x/../../../in/a.json"⟩,
        optimized := some ⟨"old.json"⟩ }
    let b : Program := { name := "x.b", source := ⟨"b.eo"⟩, intermediate := ⟨"in/b.json"⟩ }
    let b' := { b with optimized := some ⟨"out/03-optimize/x/b.json"⟩ }
    let tree (name : String) (time : Nat) : Entry := .file (Tree.ofName name).render.toUTF8 time
    let inputs : Entry := .directory [("a.json", tree "a" 2), ("b.json", tree "x.b" 1)] 1
    let s : Site :=
      { files := ⟨.directory [("work", .directory [("in", inputs), ("old.json", tree "a" 1)] 1)] 1,
          ["work"], 5⟩ }
    let s₁ := ((stage.run [a, b]).on s).2
    let fates (ps : List Program) (s : Site) :=
      ((stage.pass ps).on s).1.map fun ledger => ledger.map (·.fate)
    (∀ p ∈ [a, b], s₁.files.item? (p.intermediate.key ["work"]) =
        s.files.item? (p.intermediate.key ["work"])) ∧
      fates [a, b] s = .ok [.skipped, .worked (.ok .recomputed)] ∧
      fates [a, b'] s₁ = .ok [.worked (.ok .recomputed), .skipped] := by
  decide +kernel

end Stage

end Trainyard
