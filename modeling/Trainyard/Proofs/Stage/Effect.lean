import Mathlib.Data.List.Forall2
import Trainyard.Proofs.Stage.Run

/-!
# What a run does to the files

A run makes its directories and then works on one program after the other. Whatever relation
holds between the files before and after each of these steps, and of steps one after the other,
holds of the run.
-/

set_option autoImplicit false

namespace Trainyard.Stage

variable {R : FileSystem → FileSystem → Prop} (hR : Job.Composes R)

include hR

/-- Programs are settled one after the other, each on the site the ones before led to. Whatever
all tasks do to the files, alone and one after the other, leads there and from there to the end. -/
theorem on_execute_lines {task : Program → Job WorkError (Outcome × Program)}
    (htask : ∀ p, Job.Obeys R (task p)) (plan : Plan) (s : Site) :
    ∃ ledger s', (execute task plan).on s = (.ok ledger, s') ∧ R s.files s'.files ∧
      List.Forall₂ (fun item line => ∃ s₁ : Site, R s.files s₁.files ∧
        line = lineOf item.1 item.2 ((task item.1).on s₁).1 ∧
        R (filesOf task s₁ item.1 item.2) s'.files) plan ledger := by
  induction plan generalizing s with
  | nil => exact ⟨[], s, rfl, hR.refl _, .nil⟩
  | cons item plan ih =>
    obtain ⟨p, standing⟩ := item
    obtain ⟨s₁, hfiles, hsettle⟩ := on_settle task p standing s
    obtain ⟨ledger, s', hexecute, hrest, hlines⟩ := ih s₁
    have hstep : R s.files s₁.files := by
      rw [hfiles, filesOf]
      split
      · exact htask p s
      · exact hR.refl _
    refine ⟨_ :: ledger, s', ?_, hR.trans hstep hrest, .cons ⟨s, hR.refl _, rfl, hfiles ▸ hrest⟩ ?_⟩
    · simp only [execute, Job.on_bind, hsettle, hexecute, Job.on_pure]
    · refine hlines.imp fun item line h => ?_
      obtain ⟨s₂, hbefore, hline, hafter⟩ := h
      exact ⟨s₂, hR.trans hstep hbefore, hline, hafter⟩

theorem obeys_execute {task : Program → Job WorkError (Outcome × Program)}
    (htask : ∀ p, Job.Obeys R (task p)) (plan : Plan) : Job.Obeys R (execute task plan) := by
  intro s
  obtain ⟨ledger, s', hexecute, hfiles, -⟩ := on_execute_lines hR htask plan s
  rw [hexecute]
  exact hfiles

theorem obeys_tellAll {ε : Type} (events : List Event) :
    Job.Obeys R (tellAll events : Job ε Unit) := by
  apply Job.obeys_of_files_eq hR
  intro s
  obtain ⟨s', htell, hfiles⟩ := on_tellAll (ε := ε) events s
  rw [htell]
  exact hfiles

omit hR in
theorem proper_of_on_place {p : Program} (s : Site) (place : Place) (s' : Site)
    (h : (Job.ofExcept WorkError.place p.place).on s = (.ok place, s')) : place.Proper :=
  Place.proper_of_ofName (Job.on_ofExcept_ok h).1

theorem obeys_load (input : Path) : Job.Obeys R (Tree.load input) :=
  Job.obeys_of_files_eq hR fun s => by rw [Tree.snd_on_load]

namespace Optimize

variable {stage : Optimize} {p : Program}

theorem obeys_task_of (post : Tree → Prop)
    (happly : ∀ t, Job.Obeys R (applyTo stage.train stage.layout.optimizedCacheDir p t))
    (hpost : ∀ t s r s', (applyTo stage.train stage.layout.optimizedCacheDir p t).on s =
      (.ok r, s') → post r)
    (hsave : ∀ (place : Place) (result : Tree), place.Proper → post result →
      stage.accepts result = true → Job.Obeys R (result.save (stage.output place))) :
    Job.Obeys R (stage.task p) := by
  refine Job.obeys_bind_of hR _ (Job.obeys_ofExcept hR _ _) proper_of_on_place fun place hp => ?_
  refine Job.obeys_bind hR (Job.obeys_adapt _ (obeys_load hR _)) fun t => ?_
  refine Job.obeys_bind_of hR post (happly t) (hpost t) fun result hresult => ?_
  rw [deliver]
  split
  next haccepts =>
    refine Job.obeys_bind hR (Job.obeys_adapt _ (hsave place result hp hresult haccepts)) fun _ => ?_
    exact Job.obeys_bind hR (Job.obeys_tell hR _) fun _ => Job.obeys_pure hR _
  next => exact Job.obeys_bind hR (Job.obeys_tell hR _) fun _ => Job.obeys_pure hR _

theorem obeys_task
    (happly : ∀ t, Job.Obeys R (applyTo stage.train stage.layout.optimizedCacheDir p t))
    (hsave : ∀ (place : Place) (result : Tree), place.Proper →
      Job.Obeys R (result.save (stage.output place))) : Job.Obeys R (stage.task p) :=
  obeys_task_of hR (fun _ => True) happly (fun _ _ _ _ _ => trivial)
    fun place result hp _ _ => hsave place result hp

theorem obeys_run {ps : List Program} (hprepare : Job.Obeys R (stage.prepare ps))
    (htask : ∀ p, Job.Obeys R (stage.task p)) : Job.Obeys R (stage.run ps) := by
  have hpass : Job.Obeys R (stage.pass ps) := by
    refine Job.obeys_bind hR hprepare fun _ => Job.obeys_bind hR (Job.obeys_files hR) fun fs => ?_
    refine Job.obeys_bind hR (obeys_tellAll hR _) fun _ => ?_
    refine Job.obeys_bind hR (obeys_tellAll hR _) fun _ => ?_
    exact Job.obeys_bind hR (Job.obeys_tell hR _) fun _ => obeys_execute hR htask _
  refine Job.obeys_bind hR hpass fun ledger => ?_
  exact Job.obeys_bind hR (Job.obeys_tell hR _) fun _ => Job.obeys_pure hR _

end Optimize

namespace Binarize

variable {stage : Binarize} {p : Program}

theorem obeys_task
    (happly : ∀ t, Job.Obeys R (applyTo stage.optimization stage.layout.binarizedCacheDir p t))
    (hsave : ∀ (place : Place) (result : Tree), place.Proper →
      Job.Obeys R (result.save (stage.treeOutput place)))
    (hwrite : ∀ (place : Place) (f : OsError → WorkError) (b : ByteArray), place.Proper →
      Job.Obeys R (Job.change f (·.write (stage.codeOutput place) b))) :
    Job.Obeys R (stage.task p) := by
  refine Job.obeys_bind_of hR _ (Job.obeys_ofExcept hR _ _) proper_of_on_place fun place hp => ?_
  split
  · exact Job.obeys_of_files_eq hR fun _ => rfl
  · refine Job.obeys_bind hR (Job.obeys_adapt _ (obeys_load hR _)) fun t => ?_
    refine Job.obeys_bind hR (happly t) fun result => ?_
    refine Job.obeys_bind hR (Job.obeys_adapt _ (hsave place result hp)) fun _ => ?_
    refine Job.obeys_bind hR (Job.obeys_ofExcept hR _ _) fun code => ?_
    refine Job.obeys_bind hR (hwrite place _ _ hp) fun _ => ?_
    exact Job.obeys_bind hR (Job.obeys_tell hR _) fun _ => Job.obeys_pure hR _

theorem obeys_pass {ps : List Program} (hprepare : Job.Obeys R (stage.prepare ps))
    (htask : ∀ p, Job.Obeys R (stage.task p)) : Job.Obeys R (stage.pass ps) := by
  refine Job.obeys_bind hR hprepare fun _ => Job.obeys_bind hR (Job.obeys_files hR) fun fs => ?_
  exact Job.obeys_bind hR (obeys_tellAll hR _) fun _ => obeys_execute hR htask _

theorem obeys_run {ps : List Program} (hprepare : Job.Obeys R (stage.prepare ps))
    (htask : ∀ p, Job.Obeys R (stage.task p)) : Job.Obeys R (stage.run ps) := by
  rw [run]
  split
  · refine Job.obeys_bind hR (obeys_pass hR hprepare htask) fun ledger => ?_
    exact Job.obeys_bind hR (Job.obeys_tell hR _) fun _ => Job.obeys_pure hR _
  · exact Job.obeys_bind hR (Job.obeys_tell hR _) fun _ => Job.obeys_pure hR _

end Binarize

/-! ## Programs that stay apart -/

omit hR

/-- How programs are worked on. With what holds of the files throughout, and what is known of a
program before, something is known of it after its work. The work on a program touches the files
in a way that keeps all of this, if the program it is known of is elsewhere. -/
structure Routine (task : Program → Job WorkError (Outcome × Program))
    (Throughout : FileSystem → Prop) (Touches : Program → FileSystem → FileSystem → Prop)
    (Before : FileSystem → Program → Standing → Prop)
    (After : FileSystem → Program → Line → Prop) : Prop where
  settle : ∀ p standing s, Throughout s.files → Before s.files p standing →
    Touches p s.files (filesOf task s p standing) ∧
      After (filesOf task s p standing) p (lineOf p standing ((task p).on s).1)
  throughout : ∀ {p fs fs'}, Throughout fs → Touches p fs fs' → Throughout fs'
  before : ∀ {p q standing fs fs'}, Throughout fs → Touches p fs fs' → p.Elsewhere q →
    Before fs q standing → Before fs' q standing
  after : ∀ {p q line fs fs'}, Throughout fs → Touches p fs fs' → p.Elsewhere q →
    After fs q line → After fs' q line

/-- Every program of a plan is settled, whatever becomes of the others. -/
theorem Routine.on_execute {task : Program → Job WorkError (Outcome × Program)}
    {Throughout : FileSystem → Prop} {Touches : Program → FileSystem → FileSystem → Prop}
    {Before : FileSystem → Program → Standing → Prop}
    {After : FileSystem → Program → Line → Prop}
    (h : Routine task Throughout Touches Before After) (plan : Plan) {s : Site}
    (hfiles : Throughout s.files) (hbefore : ∀ item ∈ plan, Before s.files item.1 item.2)
    (hapart : (plan.map (·.1)).Pairwise Program.Elsewhere) :
    ∃ ledger s', (execute task plan).on s = (.ok ledger, s') ∧ Throughout s'.files ∧
      List.Forall₂ (fun item line => After s'.files item.1 line) plan ledger ∧
      ∀ q line, (∀ p ∈ plan.map (·.1), p.Elsewhere q) → After s.files q line →
        After s'.files q line := by
  induction plan generalizing s with
  | nil => exact ⟨[], s, rfl, hfiles, .nil, fun _ _ _ hq => hq⟩
  | cons item plan ih =>
    obtain ⟨p, standing⟩ := item
    rw [List.forall_mem_cons] at hbefore
    rw [List.map_cons, List.pairwise_cons] at hapart
    obtain ⟨s₁, hs₁, hsettle⟩ := on_settle task p standing s
    obtain ⟨htouches, hsettled⟩ := h.settle p standing s hfiles hbefore.1
    rw [← hs₁] at htouches hsettled
    have hbefore₁ : ∀ item ∈ plan, Before s₁.files item.1 item.2 := fun item hitem =>
      h.before hfiles htouches (hapart.1 _ (List.mem_map_of_mem hitem)) (hbefore.2 item hitem)
    obtain ⟨ledger, s', hexecute, hfiles', hlines, hlater⟩ :=
      ih (h.throughout hfiles htouches) hbefore₁ hapart.2
    refine ⟨_ :: ledger, s', ?_, hfiles', .cons (hlater p _ ?_ hsettled) hlines, ?_⟩
    · simp only [execute, Job.on_bind, hsettle, hexecute, Job.on_pure]
    · exact fun q hq => (hapart.1 q hq).symm
    · intro q line hq hafter
      rw [List.map_cons, List.forall_mem_cons] at hq
      exact hlater q line hq.2 (h.after hfiles htouches hq.1 hafter)

section Programs

variable {r : Program → Line → Prop} {ps : List Program} {ledger : Ledger}

theorem forall_mem_lines {P : Line → Prop} (h : List.Forall₂ r ps ledger)
    (hP : ∀ p ∈ ps, ∀ line, r p line → P line) : ∀ line ∈ ledger, P line := by
  induction h with
  | nil => simp
  | cons hline _ ih =>
    rw [List.forall_mem_cons] at hP ⊢
    exact ⟨hP.1 _ hline, ih hP.2⟩

theorem forall_mem_programs {P : Program → Prop} (h : List.Forall₂ r ps ledger)
    (hP : ∀ p ∈ ps, ∀ line, r p line → P line.program) : ∀ q ∈ ledger.programs, P q :=
  List.forall_mem_map.2 (forall_mem_lines h hP)

theorem map_programs {α : Type} {f : Program → α} (h : List.Forall₂ r ps ledger)
    (hf : ∀ p line, r p line → f line.program = f p) : ledger.programs.map f = ps.map f := by
  induction h with
  | nil => rfl
  | cons hline _ ih =>
    rw [Ledger.programs, List.map_cons, List.map_cons, List.map_cons, hf _ _ hline, ← ih]
    rfl

end Programs

end Trainyard.Stage
