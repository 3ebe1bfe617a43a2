import Trainyard.Proofs.Stage.Setting

/-!
# The work of the optimize stage

A program that was worked on has the answer of the train in its output, or its output is
as it was. The work on other programs changes neither, so this holds of all programs of a
batch when it is over.
-/

set_option autoImplicit false

namespace Trainyard.Stage.Optimize.Setting

variable (S : Setting)

/-! ## What is known of a program -/

def Loaded (fs : FileSystem) (p : Program) (t : Tree) : Prop :=
  ∃ raw time, fs.stat p.intermediate = .ok (.file raw time) ∧ Tree.ofFile? raw = some t

def Consistent (fs : FileSystem) (p : Program) : Prop :=
  ∀ d ∈ p.digest, ∀ raw time t place, fs.get? (p.intermediate.key S.working) = some (.file raw time) →
    Tree.ofFile? raw = some t → t.place = .ok place → S.meaning d place = t

def Correct (fs : FileSystem) (p : Program) : Prop :=
  ∃ place t r time, p.place = .ok place ∧ p.optimized = some (S.stage.output place) ∧
    Loaded fs p t ∧ S.train.answer t = .ok r ∧
    fs.stat (S.stage.output place) = .ok (.file r.render.toUTF8 time)

/-- A recorded output is there, and correct unless the parsed tree is newer. -/
def Traced (fs : FileSystem) (p : Program) : Prop :=
  ∀ output, p.optimized = some output →
    ∃ place raw input b out, p.place = .ok place ∧ output = S.stage.output place ∧
      fs.stat p.intermediate = .ok (.file raw input) ∧ fs.stat output = .ok (.file b out) ∧
      (input ≤ out → S.Correct fs p)

def CacheSound (fs : FileSystem) : Prop :=
  ∀ d place, place.Proper →
    Memo.Sound (fun r => S.train.content (S.meaning d place) = .ok r) fs (S.slot d place)

structure Spares (writes : FileSystem.Writes) (p : Program) : Prop where
  input : ∀ raw, ¬ writes (p.intermediate.key S.working) raw
  output : ∀ place raw, p.place = .ok place → ¬ writes (S.outputKey place) raw

variable {S} {writes : FileSystem.Writes} {fs fs' : FileSystem} {p : Program} {t r : Tree}
  {s s' : Site}

theorem Loaded.evolve (h : Loaded fs p t) (he : fs.Evolves writes fs') (hw : fs.working = S.working)
    (hinput : ∀ raw, ¬ writes (p.intermediate.key S.working) raw) : Loaded fs' p t :=
  Tree.FoundAt.evolve h he (by rw [hw]; exact hinput)

theorem Consistent.evolve (h : S.Consistent fs p) (he : fs.Evolves writes fs')
    (hinput : ∀ raw, ¬ writes (p.intermediate.key S.working) raw) : S.Consistent fs' p :=
  Bench.Consistent.evolve (B := S.bench) h he hinput

theorem Consistent.record (h : S.Consistent fs p) (output : Option Path) :
    S.Consistent fs { p with optimized := output } :=
  fun d hd raw time t place hget ht hplace => h d hd raw time t place hget ht hplace

theorem Correct.evolve (h : S.Correct fs p) (he : fs.Evolves writes fs')
    (hw : fs.working = S.working) (hs : S.Spares writes p) : S.Correct fs' p := by
  obtain ⟨place, t, r, time, hplace, hout, hloaded, hr, hstat⟩ := h
  exact ⟨place, t, r, time, hplace, hout, hloaded.evolve he hw hs.input, hr,
    he.stat_file (by rw [hw]; exact fun c => hs.output place c hplace) hstat⟩

theorem Traced.evolve (h : S.Traced fs p) (he : fs.Evolves writes fs')
    (hw : fs.working = S.working) (hs : S.Spares writes p) : S.Traced fs' p := by
  intro output hout
  obtain ⟨place, raw, input, b, out, hplace, rfl, hinput, houtput, hcorrect⟩ := h output hout
  exact ⟨place, raw, input, b, out, hplace, rfl,
    he.stat_file (by rw [hw]; exact hs.input) hinput,
    he.stat_file (by rw [hw]; exact fun c => hs.output place c hplace) houtput,
    fun hle => (hcorrect hle).evolve he hw hs⟩

theorem CacheSound.evolve (h : S.CacheSound fs) (he : fs.Evolves writes fs')
    (hw : ∀ d place raw, place.Proper → writes (S.slot d place) raw →
      S.Background (S.slot d place) raw) : S.CacheSound fs' :=
  Bench.Sound.evolve (B := S.bench) h he fun d place raw hp hraw =>
    background_slot hp (hw d place raw hp hraw)

theorem Correct.traced (h : S.Correct fs p) : S.Traced fs p := by
  intro output hout
  obtain ⟨place, t, r, time, hplace, hrecorded, hloaded, hr, hstat⟩ := h
  obtain ⟨raw, input, hinput, ht⟩ := hloaded
  obtain rfl : S.stage.output place = output := Option.some.inj (hrecorded.symm.trans hout)
  exact ⟨place, raw, input, _, time, hplace, rfl, hinput, hstat,
    fun _ => ⟨place, t, r, time, hplace, hrecorded, ⟨raw, input, hinput, ht⟩, hr, hstat⟩⟩

/-- Skipping is safe: an output that is not older than the parsed tree is correct. -/
theorem Traced.correct_of_fresh (h : S.Traced fs p) (hfresh : p.needsOptimization fs = false) :
    S.Correct fs p := by
  cases hout : p.optimized with
  | none => simp [Program.needsOptimization, hout] at hfresh
  | some output =>
    obtain ⟨place, raw, input, b, out, hplace, rfl, hinput, houtput, hcorrect⟩ := h output hout
    refine hcorrect ?_
    simpa [Program.needsOptimization, hout, FileSystem.modified?, hinput, houtput, Entry.modified]
      using hfresh

/-! ## The work on one program -/

def Means (S : Setting) (p : Program) (t : Tree) : Prop :=
  ∀ d ∈ p.digest, ∀ place, t.place = .ok place → S.meaning d place = t

theorem within_applyTo (hmeans : S.Means p t) : Job.Within S.working S.Background
    (applyTo S.train.optimization S.layout.optimizedCacheDir p t) := by
  refine S.bench.within_applyTo (fun dir hdir place n station raw hp => .inl ?_)
    (fun _ _ => .inr) hmeans
  rcases S.snapshots with hnone | hsome
  · exact absurd (hnone.symm.trans hdir) nofun
  · obtain rfl : S.layout.stepsDir = dir := Option.some.inj (hsome.symm.trans hdir)
    exact Train.below_snapshotKey S.working _ hp n station

theorem answer_of_on_applyTo (hmeans : S.Means p t) (hw : s.files.working = S.working)
    (hcache : S.CacheSound s.files)
    (h : (applyTo S.train.optimization S.layout.optimizedCacheDir p t).on s = (.ok r, s')) :
    S.train.answer t = .ok r :=
  S.bench.answer_of_on_applyTo hmeans hw hcache h

theorem Loaded.means (h : Loaded fs p t) (hw : fs.working = S.working)
    (hconsistent : S.Consistent fs p) : S.Means p t :=
  Bench.Consistent.means (B := S.bench) hconsistent hw h

theorem on_deliver {place : Place} {x : Except WorkError (Outcome × Program)}
    (h : (S.stage.deliver p place r).on s = (x, s')) :
    ((∃ e, x = .error e) ∨ x = .ok (.withheld, p)) ∧
        s.files.Evolves (fun _ _ => False) s'.files ∨
      ∃ s₁, x = .ok (.recomputed, { p with optimized := some (S.stage.output place) }) ∧
        (r.save (S.stage.output place)).on s = (.ok (), s₁) ∧ s'.files = s₁.files := by
  rw [deliver] at h
  by_cases haccepts : S.stage.accepts r = true
  · rw [if_pos haccepts, Job.on_bind, Job.on_adapt] at h
    rcases hsave : (r.save (S.stage.output place)).on s with ⟨saved, s₁⟩
    rw [hsave] at h
    cases saved with
    | error e =>
      cases h
      exact .inl ⟨.inl ⟨_, rfl⟩, Tree.evolves_of_on_save_error hsave⟩
    | ok u =>
      cases h
      exact .inr ⟨s₁, rfl, rfl, rfl⟩
  · rw [if_neg haccepts] at h
    cases h
    exact .inl ⟨.inr rfl, .refl _ _⟩

/-- The work on a program leaves its record and its output as they were, or saves the answer of
the train and records it. -/
theorem on_task (hw : s.files.working = S.working) (hconsistent : S.Consistent s.files p)
    (hcache : S.CacheSound s.files) {x : Except WorkError (Outcome × Program)}
    (h : (S.stage.task p).on s = (x, s')) :
    ((∃ e, x = .error e) ∨ x = .ok (.withheld, p)) ∧ s.files.Evolves S.Background s'.files ∨
      ∃ place t r s₁ s₂, p.place = .ok place ∧ Loaded s.files p t ∧ S.train.answer t = .ok r ∧
        x = .ok (.recomputed, { p with optimized := some (S.stage.output place) }) ∧
        s.files.Evolves S.Background s₁.files ∧
        (r.save (S.stage.output place)).on s₁ = (.ok (), s₂) ∧ s'.files = s₂.files := by
  rw [task, Job.on_bind, Job.on_ofExcept] at h
  cases hplace : p.place with
  | error e =>
    rw [hplace] at h
    cases h
    exact .inl ⟨.inl ⟨_, rfl⟩, .refl _ _⟩
  | ok place =>
    simp only [hplace, mapError_ok, Job.on_bind, Job.on_adapt] at h
    rcases hload : (Tree.load p.intermediate).on s with ⟨loaded, s₀⟩
    obtain rfl : s₀ = s := by simpa only [hload] using Tree.snd_on_load p.intermediate s
    rw [hload] at h
    cases loaded with
    | error e =>
      cases h
      exact .inl ⟨.inl ⟨_, rfl⟩, .refl _ _⟩
    | ok t =>
      have hloaded : Loaded s₀.files p t := Tree.on_load_ok hload
      have hmeans := hloaded.means hw hconsistent
      have hevolves := within_applyTo hmeans s₀ hw
      rcases happly : (applyTo S.stage.train S.stage.layout.optimizedCacheDir p t).on s₀
        with ⟨answer, s₁⟩
      rw [show (applyTo S.train.optimization S.layout.optimizedCacheDir p t).on s₀ =
        (answer, s₁) from happly] at hevolves
      simp only [mapError_ok, happly] at h
      cases answer with
      | error e =>
        cases h
        exact .inl ⟨.inl ⟨_, rfl⟩, hevolves⟩
      | ok r =>
        have hr := answer_of_on_applyTo hmeans hw hcache happly
        rcases on_deliver h with ⟨hx, hnone⟩ | ⟨s₂, hx, hsave, hfiles⟩
        · exact .inl ⟨hx, hevolves.trans (hnone.mono fun _ _ h => h.elim)⟩
        · exact .inr ⟨place, t, r, s₁, s₂, rfl, hloaded, hr, hx, hevolves, hsave, hfiles⟩

end Trainyard.Stage.Optimize.Setting
