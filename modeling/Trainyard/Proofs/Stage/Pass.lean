import Trainyard.Proofs.Stage.Effect
import Trainyard.Proofs.Stage.Optimize

/-!
# A pass over all programs

Programs of different places stay out of each other's way, so what is known of each of
them after its own work still holds when the pass is over.
-/

set_option autoImplicit false

namespace Trainyard.Stage.Optimize.Setting

variable (S : Setting)

/-- Programs with different places, parsed into different files outside of the directories that
the stage writes to. -/
structure Units (ps : List Program) : Prop where
  places : (ps.map Program.place).Pairwise fun a b => ∀ place, a = .ok place → b ≠ .ok place
  inputs : (ps.map (·.intermediate.key S.working)).Nodup
  target : ∀ p ∈ ps, ¬ S.targetKey <+: p.intermediate.key S.working
  cache : ∀ p ∈ ps, ¬ S.cacheKey <+: p.intermediate.key S.working

theorem Units.congr {S : Setting} {ps ps' : List Program} (h : S.Units ps)
    (hnames : ps'.map (·.name) = ps.map (·.name))
    (hinputs : ps'.map (·.intermediate) = ps.map (·.intermediate)) : S.Units ps' := by
  have hplaces : ps'.map Program.place = ps.map Program.place := by
    have := congrArg (List.map Place.ofName) hnames
    rwa [List.map_map, List.map_map] at this
  have hkeys : ps'.map (·.intermediate.key S.working) = ps.map (·.intermediate.key S.working) := by
    have := congrArg (List.map (Path.key S.working)) hinputs
    rwa [List.map_map, List.map_map] at this
  have hsame : ∀ p ∈ ps', ∃ q ∈ ps, q.intermediate = p.intermediate := by
    intro p hp
    have hmem : p.intermediate ∈ ps.map (·.intermediate) := hinputs ▸ List.mem_map_of_mem hp
    exact List.mem_map.1 hmem
  refine ⟨hplaces ▸ h.places, hkeys ▸ h.inputs, fun p hp => ?_, fun p hp => ?_⟩
  · obtain ⟨q, hq, hsame⟩ := hsame p hp
    exact hsame ▸ h.target q hq
  · obtain ⟨q, hq, hsame⟩ := hsame p hp
    exact hsame ▸ h.cache q hq

theorem Units.elsewhere {S : Setting} {ps : List Program} (h : S.Units ps) :
    ps.Pairwise Program.Elsewhere := by
  have hplaces := h.places
  rw [List.pairwise_map] at hplaces
  exact hplaces

def Work (ps : List Program) : FileSystem.Writes := fun k raw =>
  S.Background k raw ∨ ∃ p ∈ ps, ∃ place, p.place = .ok place ∧ k = S.outputKey place

variable {S} {fs fs' : FileSystem} {p : Program} {ps : List Program} {s s' : Site}

theorem work_below {k : Key} {raw : ByteArray} (h : S.Work ps k raw) :
    S.targetKey <+: k ∨ S.cacheKey <+: k := by
  rcases h with h | ⟨q, -, place, hplace, hk⟩
  · exact background_below h
  · exact .inl (hk ▸ targetKey_prefix_outputKey (Place.proper_of_ofName hplace))

theorem work_slot {d : Digest} {place : Place} {raw : ByteArray} (hp : place.Proper)
    (h : S.Work ps (S.slot d place) raw) : S.Background (S.slot d place) raw := by
  rcases h with h | ⟨q, -, other, hother, hk⟩
  · exact h
  · have htarget : S.targetKey <+: S.slot d place :=
      hk ▸ targetKey_prefix_outputKey (Place.proper_of_ofName hother)
    exact (not_below_both htarget (cacheKey_prefix_slot hp)).elim

theorem not_work_input (htarget : ¬ S.targetKey <+: p.intermediate.key S.working)
    (hcache : ¬ S.cacheKey <+: p.intermediate.key S.working) (raw : ByteArray) :
    ¬ S.Work ps (p.intermediate.key S.working) raw :=
  fun h => (work_below h).elim htarget hcache

theorem spares_work (htarget : ¬ S.targetKey <+: p.intermediate.key S.working)
    (hcache : ¬ S.cacheKey <+: p.intermediate.key S.working)
    (hplaces : ∀ q ∈ ps, ∀ place, p.place = .ok place → q.place ≠ .ok place) :
    S.Spares (S.Work ps) p := by
  refine ⟨not_work_input htarget hcache, ?_⟩
  rintro place raw hplace (h | ⟨q, hq, other, hother, hk⟩)
  · exact not_background_outputKey (Place.proper_of_ofName hplace) h
  · have heq := outputKey_injective (Place.proper_of_ofName hplace)
      (Place.proper_of_ofName hother) hk
    exact hplaces q hq place hplace (heq ▸ hother)

structure Settled (S : Setting) (fs : FileSystem) (line : Line) : Prop where
  consistent : S.Consistent fs line.program
  traced : S.Traced fs line.program
  correct : line.fate = .skipped ∨ line.fate = .worked (.ok .recomputed) →
    S.Correct fs line.program

theorem Settled.evolve {line : Line} {writes : FileSystem.Writes} (h : S.Settled fs line)
    (he : fs.Evolves writes fs') (hw : fs.working = S.working) (hs : S.Spares writes line.program) :
    S.Settled fs' line :=
  ⟨h.consistent.evolve he hs.input, h.traced.evolve he hw hs, fun hf => (h.correct hf).evolve he hw hs⟩

structure Ready (S : Setting) (fs : FileSystem) (p : Program) (standing : Standing) : Prop where
  target : ¬ S.targetKey <+: p.intermediate.key S.working
  cache : ¬ S.cacheKey <+: p.intermediate.key S.working
  consistent : S.Consistent fs p
  traced : S.Traced fs p
  fresh : standing = .fresh → S.Correct fs p

theorem Ready.evolve {standing : Standing} {writes : FileSystem.Writes}
    (h : S.Ready fs p standing) (he : fs.Evolves writes fs') (hw : fs.working = S.working)
    (hs : S.Spares writes p) : S.Ready fs' p standing :=
  ⟨h.target, h.cache, h.consistent.evolve he hs.input, h.traced.evolve he hw hs,
    fun hf => (h.fresh hf).evolve he hw hs⟩

theorem evolves_on_save {place : Place} {r : Tree} (hplace : p.place = .ok place)
    (hw : s.files.working = S.working)
    (hsave : (r.save (S.stage.output place)).on s = (.ok (), s')) :
    s.files.Evolves (S.Work [p]) s'.files := by
  have hwork : S.Work [p] ((S.stage.output place).key S.working) r.render.toUTF8 :=
    .inr ⟨p, List.mem_singleton_self p, place, hplace, rfl⟩
  have hevolves := Tree.within_save hwork s hw
  rwa [hsave] at hevolves

structure Closes (S : Setting) (fs : FileSystem) (p : Program) (line : Line) : Prop where
  target : ¬ S.targetKey <+: p.intermediate.key S.working
  cache : ¬ S.cacheKey <+: p.intermediate.key S.working
  name : line.program.name = p.name
  intermediate : line.program.intermediate = p.intermediate
  settled : S.Settled fs line

/-- A program that is due is settled by its task. -/
theorem Ready.closes_of_due {standing : Standing} (h : S.Ready s.files p standing)
    (hw : s.files.working = S.working) (hcache : S.CacheSound s.files) :
    s.files.Evolves (S.Work [p]) ((S.stage.task p).on s).2.files ∧
      S.Closes ((S.stage.task p).on s).2.files p (lineOf p .due ((S.stage.task p).on s).1) := by
  rcases hrun : (S.stage.task p).on s with ⟨x, s'⟩
  rcases on_task hw h.consistent hcache hrun with
    ⟨hx, hevolves⟩ | ⟨place, t, r, s₂, s₃, hplace, hloaded, hr, rfl, hevolves, hsave, hfiles⟩
  · -- no new output: what was known before still holds
    have hspares : S.Spares S.Background p :=
      ⟨fun raw hraw => (background_below hraw).elim h.target h.cache,
        fun place raw hplace => not_background_outputKey (Place.proper_of_ofName hplace)⟩
    have hready := h.evolve hevolves hw hspares
    refine ⟨hevolves.mono fun _ _ hraw => .inl hraw, ?_⟩
    rcases hx with ⟨e, rfl⟩ | rfl <;>
    · exact ⟨h.target, h.cache, rfl, rfl, hready.consistent, hready.traced, by simp [lineOf]⟩
  · -- the answer was saved: the program is correct from now on
    have hinput : ∀ raw, ¬ S.Work [p] (p.intermediate.key S.working) raw :=
      not_work_input h.target h.cache
    have hsaved := evolves_on_save hplace (hevolves.working.trans hw) hsave
    have hwork : s.files.Evolves (S.Work [p]) s'.files := by
      rw [hfiles]
      exact (hevolves.mono fun _ _ hraw => .inl hraw).trans hsaved
    have hcorrect : S.Correct s'.files { p with optimized := some (S.stage.output place) } := by
      refine ⟨place, t, r, s₂.files.now, hplace, rfl, hloaded.evolve hwork hw hinput, hr, ?_⟩
      rw [hfiles]
      exact Tree.on_save_ok hsave
    have hconsistent := (h.consistent.evolve hwork hinput).record (some (S.stage.output place))
    exact ⟨hwork, h.target, h.cache, rfl, rfl, hconsistent, hcorrect.traced, fun _ => hcorrect⟩

theorem Closes.evolve {q : Program} {line : Line} (h : S.Closes fs q line)
    (he : fs.Evolves (S.Work [p]) fs') (hw : fs.working = S.working)
    (helsewhere : p.Elsewhere q) : S.Closes fs' q line := by
  have hplace : line.program.place = q.place := by rw [Program.place, Program.place, h.name]
  have hspares : S.Spares (S.Work [p]) line.program := by
    refine spares_work (h.intermediate ▸ h.target) (h.intermediate ▸ h.cache) ?_
    intro p' hp' place hown hother
    rw [List.mem_singleton.1 hp'] at hother
    exact helsewhere place hother (hplace ▸ hown)
  exact ⟨h.target, h.cache, h.name, h.intermediate, h.settled.evolve he hw hspares⟩

variable (S) in
theorem routine : Routine S.stage.task
    (fun fs => fs.working = S.working ∧ S.CacheSound fs)
    (fun p fs fs' => fs.Evolves (S.Work [p]) fs') S.Ready S.Closes where
  settle p standing s hfiles h := by
    cases standing with
    | outOfScope =>
      exact ⟨.refl _ _, h.target, h.cache, rfl, rfl, h.consistent, h.traced, by simp [lineOf]⟩
    | fresh =>
      exact ⟨.refl _ _, h.target, h.cache, rfl, rfl, h.consistent, h.traced, fun _ => h.fresh rfl⟩
    | due => exact h.closes_of_due hfiles.1 hfiles.2
  throughout hfiles he :=
    ⟨he.working.trans hfiles.1, hfiles.2.evolve he fun _ _ _ hp => work_slot hp⟩
  before hfiles he helsewhere h := by
    refine h.evolve he hfiles.1 (spares_work h.target h.cache ?_)
    intro p' hp' place hown hother
    rw [List.mem_singleton.1 hp'] at hother
    exact helsewhere place hother hown
  after hfiles he helsewhere h := h.evolve he hfiles.1 helsewhere

/-! ## The pass as a whole -/

variable (S) in
structure Holds (fs : FileSystem) (ps : List Program) : Prop where
  working : fs.working = S.working
  units : S.Units ps
  cache : S.CacheSound fs
  consistent : ∀ p ∈ ps, S.Consistent fs p
  traced : ∀ p ∈ ps, S.Traced fs p

theorem Holds.evolve (h : S.Holds fs ps) (he : fs.Evolves (fun _ _ => False) fs') :
    S.Holds fs' ps := by
  have hspares (p : Program) : S.Spares (fun _ _ => False) p := ⟨fun _ => id, fun _ _ _ => id⟩
  exact ⟨he.working.trans h.working, h.units, h.cache.evolve he fun _ _ _ _ h => h.elim,
    fun p hp => (h.consistent p hp).evolve he (hspares p).input,
    fun p hp => (h.traced p hp).evolve he h.working (hspares p)⟩

theorem Holds.ready (h : S.Holds fs ps) :
    ∀ item ∈ Plan.make (S.stage.standing fs) ps, S.Ready fs item.1 item.2 := by
  intro item hitem
  obtain ⟨p, hp, rfl⟩ := List.mem_map.1 hitem
  refine ⟨h.units.target p hp, h.units.cache p hp, h.consistent p hp, h.traced p hp, fun hf => ?_⟩
  refine (h.traced p hp).correct_of_fresh ?_
  simp only [standing] at hf
  split at hf
  next => simp at hf
  next =>
    split at hf
    next => simp at hf
    next hneeds => simpa using hneeds

/-- A pass that makes its directories settles all programs. -/
theorem on_pass (h : S.Holds s.files ps) :
    (∃ e s', (S.stage.pass ps).on s = (.error e, s') ∧ S.Holds s'.files ps) ∨
      ∃ ledger s', (S.stage.pass ps).on s = (.ok ledger, s') ∧ S.Holds s'.files ledger.programs ∧
        (∀ line ∈ ledger, S.Settled s'.files line) ∧
        ledger.programs.map (·.name) = ps.map (·.name) := by
  have hprepared := h.evolve (S.stage.evolves_on_prepare ps s)
  rcases hprepare : (S.stage.prepare ps).on s with ⟨made, s₁⟩
  rw [hprepare] at hprepared
  cases made with
  | error e =>
    exact .inl ⟨e, s₁, on_pass_of_unprepared hprepare, hprepared⟩
  | ok u =>
    obtain ⟨s₂, hfiles, hpass⟩ := on_pass_of_prepare hprepare
    rw [← hfiles] at hprepared
    have hprograms : (Plan.make (S.stage.standing s₂.files) ps).map (·.1) = ps := by
      simp [Plan.make, Function.comp_def]
    obtain ⟨ledger, s', hexecute, ⟨hworking, hcache⟩, hlines, -⟩ :=
      S.routine.on_execute _ ⟨hprepared.working, hprepared.cache⟩ hprepared.ready
        (by rw [hprograms]; exact hprepared.units.elsewhere)
    rw [Plan.make, List.forall₂_map_left_iff] at hlines
    have hnames := map_programs hlines fun _ _ hline => hline.name
    have hinputs := map_programs hlines fun _ _ hline => hline.intermediate
    exact .inr ⟨ledger, s', hpass.trans hexecute, ⟨hworking, h.units.congr hnames hinputs, hcache,
      forall_mem_programs hlines fun _ _ _ hline => hline.settled.consistent,
      forall_mem_programs hlines fun _ _ _ hline => hline.settled.traced⟩,
      forall_mem_lines hlines fun _ _ _ hline => hline.settled, hnames⟩

end Trainyard.Stage.Optimize.Setting
