import Mathlib.Data.List.FinRange
import Mathlib.Data.List.Pairwise
import Mathlib.Order.Basic
import Trainyard.Proofs.Interleaving
import Trainyard.Stage.Batch

/-!
# A batch as the sum of its programs

Programs whose work stays apart can be worked on in one batch as well as each alone, one after the
other or by workers who take turns. What becomes of each of them is the same, and the files
afterwards are put together from what each leaves alone. Then neither the order nor the other
programs of the batch matter.
-/

set_option autoImplicit false

namespace Trainyard.Stage

deriving instance DecidableEq for Fate
deriving instance DecidableEq for Line

/-! ## Settling one program -/

section Settle

variable (task : Program → Job WorkError (Outcome × Program))

def lineOf (p : Program) : Standing → Except WorkError (Outcome × Program) → Line
  | .outOfScope, _ => ⟨p, .outOfScope⟩
  | .fresh, _ => ⟨p, .skipped⟩
  | .due, .ok (outcome, p') => ⟨p', .worked (.ok outcome)⟩
  | .due, .error e => ⟨p, .worked (.error e)⟩

theorem of_lineOf_worked {p : Program} {standing : Standing}
    {x : Except WorkError (Outcome × Program)} {outcome : Outcome}
    (h : (lineOf p standing x).fate = .worked (.ok outcome)) :
    standing = .due ∧ x = .ok (outcome, (lineOf p standing x).program) := by
  cases standing with
  | outOfScope => cases h
  | fresh => cases h
  | due =>
    rcases x with e | ⟨outcome', p'⟩
    · cases h
    · cases h
      exact ⟨rfl, rfl⟩

def filesOf (s : Site) (p : Program) (standing : Standing) : FileSystem :=
  if standing = .due then ((task p).on s).2.files else s.files

theorem on_settle (p : Program) (standing : Standing) (s : Site) :
    ∃ s', s'.files = filesOf task s p standing ∧
      (settle task p standing).on s = (.ok (lineOf p standing ((task p).on s).1), s') := by
  cases standing with
  | outOfScope => exact ⟨s, rfl, rfl⟩
  | fresh => exact ⟨s, rfl, rfl⟩
  | due =>
    rw [settle, Job.on_bind, Job.on_attempt, filesOf, if_pos rfl]
    rcases (task p).on s with ⟨x, s₁⟩
    cases x with
    | ok done => exact ⟨s₁, rfl, rfl⟩
    | error e => exact ⟨{ s₁ with journal := s₁.journal.push _ }, rfl, rfl⟩

variable {task} {F : Footprint} {s s' : Site} {p : Program}

theorem alike_filesOf (h : Job.Agrees F (task p).on s s') (standing : Standing) :
    lineOf p standing ((task p).on s').1 = lineOf p standing ((task p).on s).1 ∧
      FileSystem.Alike F s.files (filesOf task s p standing) s'.files
        (filesOf task s' p standing) := by
  refine ⟨by rw [h.1], ?_⟩
  rw [filesOf, filesOf]
  split
  · exact h.2
  · exact .refl F _ _

theorem steady_settle (hready : F.Ready s.files) (h : Job.Steady F (task p) s)
    (standing : Standing) : Job.Steady F (settle task p standing) s := by
  cases standing with
  | outOfScope => exact Job.steady_pure _
  | fresh => exact Job.steady_pure _
  | due =>
    refine Job.steady_bind hready (Job.steady_attempt h) fun result s₁ _ _ hready₁ => ?_
    cases result with
    | ok done => exact Job.steady_pure _
    | error e =>
      exact Job.steady_bind hready₁ (Job.steady_tell _) fun _ _ _ _ _ => Job.steady_pure _

end Settle

theorem on_tellAll {ε : Type} (events : List Event) (s : Site) :
    ∃ s', (tellAll events : Job ε Unit).on s = (.ok (), s') ∧ s'.files = s.files := by
  induction events generalizing s with
  | nil => exact ⟨s, rfl, rfl⟩
  | cons e es ih =>
    obtain ⟨s', htell, hfiles⟩ := ih { s with journal := s.journal.push e }
    exact ⟨s', htell, hfiles⟩

/-! ## Executing a plan -/

section Execute

variable {task : Program → Job WorkError (Outcome × Program)}

def Plan.jobs (plan : Plan) (task : Program → Job WorkError (Outcome × Program)) :
    Fin plan.length → Job WorkError Line :=
  fun i => settle task (plan.get i).1 (plan.get i).2

/-- Workers who take turns in some way settle the programs of a plan. -/
def Plan.Shared (plan : Plan) (task : Program → Job WorkError (Outcome × Program)) (s : Site)
    (ledger : Ledger) (s' : Site) : Prop :=
  ∃ (turns : List (Fin plan.length)) (line : Fin plan.length → Line),
    Job.interleave turns (plan.jobs task) s = (fun i => .done (.ok (line i)), s') ∧
      ledger = List.ofFn line

/-- To work on programs one after the other is to take turns in some way. -/
theorem exists_interleave_execute {ι : Type} [DecidableEq ι] {item : ι → Program × Standing}
    {all : List ι} (hnodup : all.Nodup) {jobs : ι → Job WorkError Line}
    (hjobs : ∀ i ∈ all, jobs i = settle task (item i).1 (item i).2) (s : Site) :
    ∃ (turns : List ι) (line : ι → Line),
      ((execute task (all.map item)).on s).1 = .ok (all.map line) ∧
      Job.interleave turns jobs s =
        (fun i => if i ∈ all then .done (.ok (line i)) else jobs i,
          ((execute task (all.map item)).on s).2) := by
  induction all generalizing jobs s with
  | nil => exact ⟨[], fun i => ⟨(item i).1, .skipped⟩, rfl, by simp [Job.interleave, execute]⟩
  | cons i all ih =>
    rw [List.nodup_cons] at hnodup
    rw [List.forall_mem_cons] at hjobs
    obtain ⟨s₁, -, hsettle⟩ := on_settle task (item i).1 (item i).2 s
    generalize lineOf (item i).1 (item i).2 ((task (item i).1).on s).1 = first at hsettle
    obtain ⟨turns, hfirst⟩ := Job.exists_interleave_alone i jobs s
    rw [hjobs.1, hsettle] at hfirst
    have hne {j : ι} (hj : j ∈ all) : j ≠ i := fun heq => hnodup.1 (heq ▸ hj)
    have hrest : ∀ j ∈ all, Function.update jobs i (.done (.ok first)) j =
        settle task (item j).1 (item j).2 :=
      fun j hj => by rw [Function.update_of_ne (hne hj), hjobs.2 j hj]
    obtain ⟨turns', line, hledger, hinterleave⟩ := ih hnodup.2 hrest s₁
    have hexecute : (execute task ((i :: all).map item)).on s =
        (.ok (first :: all.map line), ((execute task (all.map item)).on s₁).2) := by
      rw [List.map_cons, execute, Job.on_bind, hsettle]
      dsimp only
      rw [Job.on_bind, Job.on_of_fst hledger]
      rfl
    refine ⟨turns ++ turns', Function.update line i first, ?_, ?_⟩
    · have hlines : all.map (Function.update line i first) = all.map line :=
        List.map_congr_left fun j hj => by rw [Function.update_of_ne (hne hj)]
      rw [hexecute, List.map_cons, Function.update_self, hlines]
    · rw [Job.interleave_append, hfirst, hinterleave, hexecute]
      refine Prod.ext (funext fun j => ?_) rfl
      by_cases hj : j = i
      · subst hj
        simp [hnodup.1]
      · simp [hj]

theorem Plan.shared_execute (plan : Plan) (task : Program → Job WorkError (Outcome × Program))
    (s : Site) : ∃ ledger s', (execute task plan).on s = (.ok ledger, s') ∧
      plan.Shared task s ledger s' := by
  have hplan : (List.finRange plan.length).map plan.get = plan := List.map_get_finRange plan
  have hjobs : ∀ i ∈ List.finRange plan.length, plan.jobs task i =
      settle task (plan.get i).1 (plan.get i).2 := fun _ _ => rfl
  obtain ⟨turns, line, hledger, hinterleave⟩ :=
    exists_interleave_execute (List.nodup_finRange _) hjobs s
  rw [hplan] at hledger hinterleave
  refine ⟨_, _, Job.on_of_fst hledger, turns, line, ?_, List.ofFn_eq_map.symm⟩
  simpa using hinterleave

/-- However workers take turns, all programs of a plan are settled as they would be alone, and the
files are put together from what each of them leaves alone. -/
theorem Plan.Shared.beside {plan : Plan} {F : Program → Footprint} {s₀ s s' : Site}
    {ledger : Ledger} (h : plan.Shared task s ledger s') (hfiles : s.files = s₀.files)
    (hready : ∀ item ∈ plan, (F item.1).Ready s₀.files)
    (hsteady : ∀ item ∈ plan, Job.Steady (F item.1) (task item.1) s₀)
    (hapart : plan.Pairwise fun a b => FileSystem.Apart s₀.files (F a.1) (F b.1) ∧
      FileSystem.Apart s₀.files (F b.1) (F a.1)) :
    ledger = (plan.map fun item => lineOf item.1 item.2 ((task item.1).on s₀).1) ∧
      FileSystem.Merged s₀.files (plan.map fun item => filesOf task s₀ item.1 item.2) s'.files := by
  obtain ⟨turns, line, hdone, rfl⟩ := h
  have hapart (i j : Fin plan.length) (hij : i ≠ j) :
      FileSystem.Apart s₀.files (F (plan.get i).1) (F (plan.get j).1) := by
    rw [List.pairwise_iff_get] at hapart
    rcases Nat.lt_or_gt_of_ne (Fin.val_ne_of_ne hij) with hlt | hgt
    · exact (hapart i j hlt).1
    · exact (hapart j i hgt).2
  have hready (i : Fin plan.length) := hready (plan.get i) (plan.get_mem i)
  have hsteady (i : Fin plan.length) : Job.Steady (F (plan.get i).1) (plan.jobs task i) s₀ :=
    steady_settle (hready i) (hsteady (plan.get i) (plan.get_mem i)) _
  obtain ⟨hanswers, hcrew⟩ := Job.crew_of_interleave_done hapart hready hsteady hfiles hdone
  have halone (i : Fin plan.length) :
      line i = lineOf (plan.get i).1 (plan.get i).2 ((task (plan.get i).1).on s₀).1 ∧
        ((plan.jobs task i).on s₀).2.files = filesOf task s₀ (plan.get i).1 (plan.get i).2 := by
    have hanswer := hanswers i
    obtain ⟨s₁, hfiles, hsettle⟩ := on_settle task (plan.get i).1 (plan.get i).2 s₀
    rw [Plan.jobs, hsettle] at hanswer ⊢
    exact ⟨Except.ok.inj hanswer, hfiles⟩
  have hplan {β : Type} (f : Program × Standing → β) :
      plan.map f = (List.finRange plan.length).map fun i => f (plan.get i) := by
    conv_lhs => rw [← List.map_get_finRange plan, List.map_map]
    rfl
  constructor
  · rw [List.ofFn_eq_map, hplan]
    exact List.map_congr_left fun i _ => (halone i).1
  · have hmerged := hcrew.merged (List.mem_finRange (n := plan.length))
    rw [hplan]
    rwa [List.map_congr_left fun i _ => (halone i).2] at hmerged

end Execute

structure Settles (pass : Job WorkError Ledger) (run : Job WorkError (Report × List Program))
    (s : Site) (ledger : Ledger) (s' : Site) : Prop where
  pass : (pass.on s).1 = .ok ledger
  run : run.on s = (.ok (ledger.report, ledger.programs), s')

end Trainyard.Stage
