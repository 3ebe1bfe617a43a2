import Trainyard.Proofs.Stage.Binarize.Setting

/-!
# The work of the binarize stage

A program that was worked on has the code from the answer of the train, or its code is as it
was, whatever trees and snapshots the work has left. The work on other programs changes neither,
so this holds of all programs of a batch when it is over.
-/

set_option autoImplicit false

namespace Trainyard.Stage.Binarize.Setting

variable (S : Setting)

/-! ## What is known of a program -/

def Consistent (fs : FileSystem) (p : Program) : Prop :=
  ∀ input ∈ p.optimized, S.bench.Consistent fs p.digest (input.key S.working)

def Correct (fs : FileSystem) (p : Program) : Prop :=
  ∃ place input t r code time, p.place = .ok place ∧ p.optimized = some input ∧
    p.binarized = some (S.stage.codeOutput place) ∧ Tree.FoundAt fs input t ∧
    S.train.answer t = .ok r ∧ r.require Tree.codeKey = .ok code ∧
    fs.stat (S.stage.codeOutput place) = .ok (.file code.toUTF8 time)

def Traced (fs : FileSystem) (p : Program) : Prop :=
  ∀ place raw out, p.place = .ok place → fs.item? (S.codeKey place) = some (.file raw out) →
    ∃ input raw' time, p.optimized = some input ∧ fs.stat input = .ok (.file raw' time) ∧
      (time ≤ out → S.Correct fs p)

structure Spares (writes : FileSystem.Writes) (p : Program) : Prop where
  input : ∀ input ∈ p.optimized, ∀ raw, ¬ writes (input.key S.working) raw
  code : ∀ place raw, p.place = .ok place → ¬ writes (S.codeKey place) raw

variable {S} {writes : FileSystem.Writes} {fs fs' : FileSystem} {p q : Program} {t r : Tree}
  {s s' : Site}

theorem Consistent.evolve (h : S.Consistent fs p) (he : fs.Evolves writes fs')
    (hs : S.Spares writes p) : S.Consistent fs' p :=
  fun input hinput => (h input hinput).evolve he (hs.input input hinput)

theorem Correct.evolve (h : S.Correct fs p) (he : fs.Evolves writes fs')
    (hw : fs.working = S.working) (hs : S.Spares writes p) : S.Correct fs' p := by
  obtain ⟨place, input, t, r, code, time, hplace, hinput, hrecord, ht, hr, hcode, hstat⟩ := h
  refine ⟨place, input, t, r, code, time, hplace, hinput, hrecord, ht.evolve he ?_, hr, hcode,
    he.stat_file ?_ hstat⟩
  · rw [hw]
    exact hs.input input hinput
  · rw [hw]
    exact fun raw => hs.code place raw hplace

theorem Traced.evolve (h : S.Traced fs p) (he : fs.Evolves writes fs')
    (hw : fs.working = S.working) (hs : S.Spares writes p) : S.Traced fs' p := by
  intro place raw out hplace hitem
  rcases he.file_cases hitem with hbefore | ⟨hwritten, -⟩
  · obtain ⟨input, raw', time, hinput, hstat, hcorrect⟩ := h place raw out hplace hbefore
    refine ⟨input, raw', time, hinput, he.stat_file ?_ hstat, fun hle =>
      (hcorrect hle).evolve he hw hs⟩
    rw [hw]
    exact hs.input input hinput
  · exact absurd hwritten (hs.code place raw hplace)

theorem Correct.traced (h : S.Correct fs p) : S.Traced fs p := by
  intro _ _ _ _ _
  obtain ⟨place, input, t, r, code, time, hplace, hinput, hrecord, ht, hr, hcode, hstat⟩ := h
  obtain ⟨raw', modified, hfile, hspells⟩ := ht
  exact ⟨input, raw', modified, hinput, hfile, fun _ => ⟨place, input, t, r, code, time, hplace,
    hinput, hrecord, ⟨raw', modified, hfile, hspells⟩, hr, hcode, hstat⟩⟩

/-- Skipping is safe where no directory stands in for the code. -/
theorem Traced.correct_of_fresh (h : S.Traced fs p) (hw : fs.working = S.working)
    (hbare : ∀ place, p.place = .ok place → fs.item? (S.codeKey place) ≠ some .directory)
    (hfresh : S.stage.standing fs p = .fresh) : S.Correct fs p := by
  obtain ⟨-, path, hpath, out, hout, hinputs⟩ := (S.stage.standing_eq_fresh fs p).1 hfresh
  cases hplace : p.place with
  | error e => simp [target, hplace, Except.toOption] at hpath
  | ok place =>
    obtain rfl : S.stage.codeOutput place = path := by
      simpa [target, hplace, Except.toOption] using hpath
    obtain ⟨entry, hentry, rfl⟩ := FileSystem.modified?_eq_some.1 hout
    have hget := FileSystem.stat_ok hentry
    rw [hw] at hget
    have hitem : fs.item? (S.codeKey place) = some entry.item := by
      rw [FileSystem.item?_eq_map, codeKey, hget]
      rfl
    cases entry with
    | directory children time => exact absurd hitem (hbare place hplace)
    | file raw time =>
      obtain ⟨input, raw', modified, hinput, hstat, hcorrect⟩ := h place raw time hplace hitem
      refine hcorrect (hinputs input (by simp [inputs, hinput]) modified ?_)
      exact FileSystem.modified?_eq_some.2 ⟨_, hstat, rfl⟩

/-! ## The work on one program -/

theorem within_applyTo (hmeans : S.bench.Means p.digest t) : Job.Within S.working S.Background
    (applyTo S.stage.optimization S.layout.binarizedCacheDir p t) := by
  refine S.bench.within_applyTo (fun dir hdir place position station raw hp => ?_)
    (fun _ _ => .inr) hmeans
  cases hdir
  exact background_snapshot hp position station

theorem on_deliver {place : Place} {x : Except WorkError (Outcome × Program)}
    (hp : place.Proper) (hw : s.files.working = S.working)
    (h : (S.stage.deliver p place r).on s = (x, s')) :
    (∃ e, x = .error e) ∧ s.files.Evolves S.Background s'.files ∨
      ∃ code fs, r.require Tree.codeKey = .ok code ∧ s.files.Evolves S.Background fs ∧
        x = .ok (.recomputed, { p with binarized := some (S.stage.codeOutput place) }) ∧
        fs.write (S.stage.codeOutput place) code.toUTF8 = .ok s'.files := by
  have hevolves : s.files.Evolves S.Background ((r.save (S.stage.treeOutput place)).on s).2.files :=
    Tree.within_save (background_treeOutput hp) s hw
  rw [deliver, Job.on_bind, Job.on_adapt] at h
  rcases hsave : (r.save (S.stage.treeOutput place)).on s with ⟨saved, s₁⟩
  rw [hsave] at h hevolves
  cases saved with
  | error e =>
    cases h
    exact .inl ⟨⟨_, rfl⟩, hevolves⟩
  | ok u =>
    simp only [mapError_ok, Job.on_bind, Job.on_ofExcept] at h
    cases hcode : r.require Tree.codeKey with
    | error e =>
      rw [hcode] at h
      cases h
      exact .inl ⟨⟨_, rfl⟩, hevolves⟩
    | ok code =>
      simp only [hcode, mapError_ok, Job.on_change] at h
      cases hwrite : s₁.files.write (S.stage.codeOutput place) code.toUTF8 with
      | error e =>
        rw [hwrite] at h
        cases h
        exact .inl ⟨⟨_, rfl⟩, hevolves⟩
      | ok fs =>
        rw [hwrite] at h
        cases h
        exact .inr ⟨code, s₁.files, rfl, hevolves, rfl, hwrite⟩

/-- The work on a program leaves its record and its code as they were, or writes the code from
the answer of the train and records it. -/
theorem on_task (hw : s.files.working = S.working) (hconsistent : S.Consistent s.files p)
    (hsound : S.bench.Sound s.files) {x : Except WorkError (Outcome × Program)}
    (h : (S.stage.task p).on s = (x, s')) :
    (∃ e, x = .error e) ∧ s.files.Evolves S.Background s'.files ∨
      ∃ place input t r code fs, p.place = .ok place ∧ p.optimized = some input ∧
        Tree.FoundAt s.files input t ∧ S.train.answer t = .ok r ∧
        r.require Tree.codeKey = .ok code ∧ s.files.Evolves S.Background fs ∧
        x = .ok (.recomputed, { p with binarized := some (S.stage.codeOutput place) }) ∧
        fs.write (S.stage.codeOutput place) code.toUTF8 = .ok s'.files := by
  rw [task_eq, Job.on_bind, Job.on_ofExcept] at h
  cases hplace : p.place with
  | error e =>
    rw [hplace] at h
    cases h
    exact .inl ⟨⟨_, rfl⟩, .refl _ _⟩
  | ok place =>
    simp only [hplace, mapError_ok] at h
    rcases Option.eq_none_or_eq_some p.optimized with hnone | ⟨input, hinput⟩
    · rw [hnone] at h
      cases h
      exact .inl ⟨⟨_, rfl⟩, .refl _ _⟩
    · simp only [hinput, Job.on_bind, Job.on_adapt] at h
      rcases hload : (Tree.load input).on s with ⟨loaded, s₀⟩
      obtain rfl : s₀ = s := by simpa only [hload] using Tree.snd_on_load input s
      rw [hload] at h
      cases loaded with
      | error e =>
        cases h
        exact .inl ⟨⟨_, rfl⟩, .refl _ _⟩
      | ok t =>
        have ht : Tree.FoundAt s₀.files input t := Tree.on_load_ok hload
        have hmeans := (hconsistent input hinput).means hw ht
        have hevolves := within_applyTo hmeans s₀ hw
        rcases happly : (applyTo S.stage.optimization S.layout.binarizedCacheDir p t).on s₀
          with ⟨answer, s₁⟩
        rw [happly] at hevolves
        simp only [mapError_ok, show S.stage.layout = S.layout from rfl, happly] at h
        cases answer with
        | error e =>
          cases h
          exact .inl ⟨⟨_, rfl⟩, hevolves⟩
        | ok r =>
          have hr := S.bench.answer_of_on_applyTo hmeans hw hsound happly
          have hproper := Place.proper_of_ofName hplace
          rcases on_deliver hproper (hevolves.working.trans hw) h with
            ⟨hx, hlater⟩ | ⟨code, fs, hcode, hlater, hx, hwrite⟩
          · exact .inl ⟨hx, hevolves.trans hlater⟩
          · exact .inr ⟨place, input, t, r, code, fs, rfl, hinput, ht, hr, hcode,
              hevolves.trans hlater, hx, hwrite⟩

/-! ## The work on all programs -/

variable (S) in
def Work (p : Program) : FileSystem.Writes := fun k raw =>
  S.Background k raw ∨ ∃ place, p.place = .ok place ∧ k = S.codeKey place

variable (S) in
def Outside (p : Program) : Prop :=
  ∀ i ∈ inputs p, ¬ S.dirKey <+: i.key S.working ∧ ¬ S.cacheKey <+: i.key S.working

theorem work_below {k : Key} {raw : ByteArray} (h : S.Work p k raw) :
    S.dirKey <+: k ∨ S.cacheKey <+: k := by
  rcases h with h | ⟨place, hplace, hkey⟩
  · exact background_below h
  · exact .inl (hkey ▸ dirKey_below_codeKey (Place.proper_of_ofName hplace))

theorem work_slot {d : Digest} {place : Place} {raw : ByteArray} (hp : place.Proper)
    (h : S.Work p (S.bench.slot d place) raw) : S.bench.Stores (S.bench.slot d place) raw := by
  rcases h with h | ⟨other, hother, hkey⟩
  · exact background_slot hp h
  · have hdir : S.dirKey <+: S.bench.slot d place :=
      hkey ▸ dirKey_below_codeKey (Place.proper_of_ofName hother)
    exact (not_below_both hdir (S.bench.cache_below_slot hp)).elim

theorem Outside.not_work (h : S.Outside q) {i : Path} (hi : i ∈ inputs q) (raw : ByteArray) :
    ¬ S.Work p (i.key S.working) raw :=
  fun hwork => (work_below hwork).elim (h i hi).1 (h i hi).2

theorem mem_inputs {input : Path} (h : input ∈ p.optimized) : input ∈ inputs p := by
  rw [Option.mem_def] at h
  simp [inputs, h]

theorem Outside.spares_work (h : S.Outside q) (helsewhere : p.Elsewhere q) :
    S.Spares (S.Work p) q := by
  refine ⟨fun input hinput => h.not_work (mem_inputs hinput), ?_⟩
  rintro place raw hplace (hback | ⟨other, hother, hkey⟩)
  · exact not_background_codeKey (Place.proper_of_ofName hplace) hback
  · have heq := codeKey_injective (Place.proper_of_ofName hplace) (Place.proper_of_ofName hother)
      hkey
    exact helsewhere place (heq ▸ hother) hplace

structure Ready (S : Setting) (fs : FileSystem) (p : Program) (standing : Standing) : Prop where
  outside : S.Outside p
  consistent : S.Consistent fs p
  traced : S.Traced fs p
  fresh : standing = .fresh → S.Correct fs p

structure Settled (S : Setting) (fs : FileSystem) (p : Program) (line : Line) : Prop where
  outside : S.Outside p
  record : ∃ code, line.program = { p with binarized := code }
  consistent : S.Consistent fs line.program
  traced : S.Traced fs line.program
  correct : line.fate = .skipped ∨ line.fate = .worked (.ok .recomputed) →
    S.Correct fs line.program

theorem Ready.evolve {standing : Standing} (h : S.Ready fs p standing)
    (he : fs.Evolves writes fs') (hw : fs.working = S.working) (hs : S.Spares writes p) :
    S.Ready fs' p standing :=
  ⟨h.outside, h.consistent.evolve he hs, h.traced.evolve he hw hs,
    fun hf => (h.fresh hf).evolve he hw hs⟩

theorem Settled.evolve {line : Line} (h : S.Settled fs q line) (he : fs.Evolves (S.Work p) fs')
    (hw : fs.working = S.working) (helsewhere : p.Elsewhere q) : S.Settled fs' q line := by
  obtain ⟨code, hrecord⟩ := h.record
  have hs : S.Spares (S.Work p) line.program := by
    have hspares := h.outside.spares_work helsewhere
    rw [hrecord]
    exact ⟨hspares.input, hspares.code⟩
  exact ⟨h.outside, h.record, h.consistent.evolve he hs, h.traced.evolve he hw hs,
    fun hf => (h.correct hf).evolve he hw hs⟩

theorem Ready.settled_of_due {standing : Standing} (h : S.Ready s.files p standing)
    (hw : s.files.working = S.working) (hsound : S.bench.Sound s.files) :
    s.files.Evolves (S.Work p) ((S.stage.task p).on s).2.files ∧
      S.Settled ((S.stage.task p).on s).2.files p
        (lineOf p .due ((S.stage.task p).on s).1) := by
  rcases hrun : (S.stage.task p).on s with ⟨x, s'⟩
  rcases on_task hw h.consistent hsound hrun with
    ⟨⟨e, rfl⟩, hevolves⟩ |
    ⟨place, input, t, r, code, fs, hplace, hinput, ht, hr, hcode, hevolves, rfl, hwrite⟩
  · -- no new code: what was known before still holds
    have hspares : S.Spares S.Background p :=
      ⟨fun input hinput raw hraw => h.outside.not_work (p := p) (mem_inputs hinput) raw (.inl hraw),
        fun place raw hplace => not_background_codeKey (Place.proper_of_ofName hplace)⟩
    have hready := h.evolve hevolves hw hspares
    exact ⟨hevolves.mono fun _ _ => .inl, h.outside, ⟨p.binarized, rfl⟩, hready.consistent,
      hready.traced, by simp [lineOf]⟩
  · -- the code was written: the program is correct from now on
    have hset := (FileSystem.write_ok hwrite).1
    have hwritten : fs.Evolves (S.Work p) s'.files := by
      refine (FileSystem.Evolves.of_setsFile hset).mono fun k raw hkey => ?_
      rw [hkey.1, hevolves.working, hw]
      exact .inr ⟨place, hplace, rfl⟩
    have hwork := (hevolves.mono fun _ _ => .inl).trans hwritten
    have hnot : ∀ raw, ¬ S.Work p (input.key s.files.working) raw := by
      rw [hw]
      exact h.outside.not_work (mem_inputs hinput)
    have hcorrect : S.Correct s'.files
        { p with binarized := some (S.stage.codeOutput place) } :=
      ⟨place, input, t, r, code, fs.now, hplace, hinput, rfl, ht.evolve hwork hnot, hr, hcode,
        FileSystem.stat_write hwrite⟩
    have hconsistent : S.Consistent s'.files
        { p with binarized := some (S.stage.codeOutput place) } := fun i hi =>
      (h.consistent i hi).evolve hwork (h.outside.not_work (mem_inputs hi))
    exact ⟨hwork, h.outside, ⟨_, rfl⟩, hconsistent, hcorrect.traced, fun _ => hcorrect⟩

variable (S) in
theorem routine : Routine S.stage.task
    (fun fs => fs.working = S.working ∧ S.bench.Sound fs)
    (fun p fs fs' => fs.Evolves (S.Work p) fs') S.Ready S.Settled where
  settle p standing s hfiles h := by
    cases standing with
    | outOfScope =>
      exact ⟨.refl _ _, h.outside, ⟨p.binarized, rfl⟩, h.consistent, h.traced, by simp [lineOf]⟩
    | fresh =>
      exact ⟨.refl _ _, h.outside, ⟨p.binarized, rfl⟩, h.consistent, h.traced, fun _ => h.fresh rfl⟩
    | due => exact h.settled_of_due hfiles.1 hfiles.2
  throughout hfiles he :=
    ⟨he.working.trans hfiles.1, hfiles.2.evolve he fun _ _ _ hp => work_slot hp⟩
  before hfiles he helsewhere h := h.evolve he hfiles.1 (h.outside.spares_work helsewhere)
  after hfiles he helsewhere h := h.evolve he hfiles.1 helsewhere

end Trainyard.Stage.Binarize.Setting
