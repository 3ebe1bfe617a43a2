import Trainyard.Proofs.Stage.Pass

/-!
# Histories of the optimize stage

Parsed trees are edited and the stage is run, in any order and any number of times. After
each run, every program that was skipped or recomputed has in its output what the train
makes of its parsed tree now. Skipping looks at times and recorded paths only, and an answer
may come from a memo of an earlier run; that both are safe is an invariant of the history.
-/

set_option autoImplicit false

namespace Trainyard.Stage.Optimize.Setting

variable (S : Setting)

/-- Nothing has been optimized, no file lies below the cache directory, and digests stand for
the trees that are there. -/
structure Begins (site : Site) (ps : List Program) : Prop where
  working : site.files.working = S.working
  units : S.Units ps
  new : ∀ p ∈ ps, p.optimized = none
  empty : ∀ k raw time, S.cacheKey <+: k → site.files.get? k ≠ some (.file raw time)
  consistent : ∀ p ∈ ps, S.Consistent site.files p

def programsAfter (ps : List Program) : Except WorkError (Report × List Program) → List Program
  | .ok (_, ps') => ps'
  | .error _ => ps

/-- Edits write a parsed tree anew, later than all that exists, and set the digest. Runs may come
at any time. -/
inductive History : Site → List Program → Prop
  | begins {site : Site} {ps : List Program} (h : S.Begins site ps) : History site ps
  | edit {site site' : Site} {before after : List Program} {p : Program} {t : Tree}
      {digest : Option Digest} {time : Nat} (h : History site (before ++ p :: after))
      (hlatest : ∀ k e, site.files.get? k = some e → e.modified < time)
      (hmeans : ∀ d ∈ digest, ∀ place, t.place = .ok place → S.meaning d place = t)
      (hsave : (t.save p.intermediate).on (site.atTime time) = (.ok (), site')) :
      History site' (before ++ { p with digest := digest } :: after)
  | run {site : Site} {ps : List Program} (time : Nat) (h : History site ps) :
      History ((S.stage.run ps).on (site.atTime time)).2
        (programsAfter ps ((S.stage.run ps).on (site.atTime time)).1)

variable {S} {fs : FileSystem} {ps : List Program} {s site site' : Site}

theorem Begins.holds (h : S.Begins site ps) : S.Holds site.files ps := by
  refine ⟨h.working, h.units, ?_, h.consistent, ?_⟩
  · intro d place hp raw time t hitem
    exact absurd (FileSystem.item?_eq_file.1 hitem) (h.empty _ raw time (cacheKey_prefix_slot hp))
  · intro p hp output hout
    simp [h.new p hp] at hout

theorem Holds.atTime (h : S.Holds site.files ps) (time : Nat) :
    S.Holds (site.atTime time).files ps := by
  refine ⟨h.working, h.units, h.cache, h.consistent, ?_⟩
  simpa only [Traced, Correct, Loaded, Site.stat_atTime] using h.traced

section Edit

variable {before after : List Program} {p : Program} {t : Tree} {digest : Option Digest}
  {time : Nat}

def Edited (S : Setting) (p : Program) : FileSystem.Writes :=
  fun k _ => k = p.intermediate.key S.working

theorem evolves_on_edit (hw : site.files.working = S.working)
    (hsave : (t.save p.intermediate).on (site.atTime time) = (.ok (), site')) :
    (site.atTime time).files.Evolves (S.Edited p) site'.files := by
  have hwrites : S.Edited p (p.intermediate.key S.working) t.render.toUTF8 := rfl
  have hevolves := Tree.within_save hwrites (site.atTime time) hw
  rwa [hsave] at hevolves

theorem not_edited_outputKey (htarget : ¬ S.targetKey <+: p.intermediate.key S.working)
    {place : Place} (hp : place.Proper) (raw : ByteArray) :
    ¬ S.Edited p (S.outputKey place) raw := by
  intro h
  have hkey : S.outputKey place = p.intermediate.key S.working := h
  exact htarget (hkey ▸ targetKey_prefix_outputKey hp)

theorem spares_edited (htarget : ¬ S.targetKey <+: p.intermediate.key S.working) {q : Program}
    (hne : q.intermediate.key S.working ≠ p.intermediate.key S.working) :
    S.Spares (S.Edited p) q :=
  ⟨fun _ => hne, fun _ raw hplace =>
    not_edited_outputKey htarget (Place.proper_of_ofName hplace) raw⟩

theorem Units.spares_edited (h : S.Units (before ++ p :: after)) :
    ∀ q ∈ before ++ after, S.Spares (S.Edited p) q := by
  intro q hq
  have hinputs := h.inputs
  rw [(List.perm_middle.map _).nodup_iff, List.map_cons, List.nodup_cons] at hinputs
  exact Setting.spares_edited (h.target p (by simp)) fun heq =>
    hinputs.1 (heq ▸ List.mem_map_of_mem hq)

theorem consistent_of_edit (hworking : site'.files.working = S.working)
    (hmeans : ∀ d ∈ digest, ∀ place, t.place = .ok place → S.meaning d place = t)
    (hsaved : site'.files.stat p.intermediate = .ok (.file t.render.toUTF8 time)) :
    S.Consistent site'.files { p with digest := digest } :=
  S.bench.consistent_of_saved hworking hmeans hsaved

/-- An output that is older than the edit need not be correct any more. -/
theorem Traced.edit (h : S.Traced (site.atTime time).files p)
    (hworking : site.files.working = S.working)
    (htarget : ¬ S.targetKey <+: p.intermediate.key S.working)
    (hlatest : ∀ k e, site.files.get? k = some e → e.modified < time)
    (hevolves : (site.atTime time).files.Evolves (S.Edited p) site'.files)
    (hsaved : site'.files.stat p.intermediate = .ok (.file t.render.toUTF8 time)) :
    S.Traced site'.files { p with digest := digest } := by
  intro output hout
  obtain ⟨place, raw, input, b, out, hplace, rfl, -, houtput, -⟩ := h output hout
  have huntouched : ∀ raw, ¬ S.Edited p ((S.stage.output place).key site.files.working) raw := by
    rw [hworking]
    exact not_edited_outputKey htarget (Place.proper_of_ofName hplace)
  have hkept := hevolves.stat_file huntouched houtput
  rw [Site.stat_atTime] at houtput
  have hold : out < time := hlatest _ _
    (FileSystem.item?_eq_file.1 (FileSystem.item?_of_stat_file houtput))
  exact ⟨place, _, time, b, out, hplace, rfl, hsaved, hkept, fun hle => by omega⟩

/-- An edit keeps the files of all other programs, and its own program is due. -/
theorem Holds.edit (h : S.Holds site.files (before ++ p :: after))
    (hlatest : ∀ k e, site.files.get? k = some e → e.modified < time)
    (hmeans : ∀ d ∈ digest, ∀ place, t.place = .ok place → S.meaning d place = t)
    (hsave : (t.save p.intermediate).on (site.atTime time) = (.ok (), site')) :
    S.Holds site'.files (before ++ { p with digest := digest } :: after) := by
  have hnow := h.atTime time
  have hevolves := evolves_on_edit h.working hsave
  have hworking := hevolves.working.trans hnow.working
  have hsaved := Tree.on_save_ok hsave
  have hothers := h.units.spares_edited
  obtain ⟨htarget, -⟩ := forall_mem_middle.1 h.units.target
  obtain ⟨hcache, -⟩ := forall_mem_middle.1 h.units.cache
  obtain ⟨-, hconsistent⟩ := forall_mem_middle.1 hnow.consistent
  obtain ⟨htraced, htracedOthers⟩ := forall_mem_middle.1 hnow.traced
  refine ⟨hworking, h.units.congr (by simp) (by simp), ?_, ?_, ?_⟩
  · refine hnow.cache.evolve hevolves fun d place raw hproper hedited => ?_
    have hkey : S.slot d place = p.intermediate.key S.working := hedited
    exact absurd (hkey ▸ cacheKey_prefix_slot hproper) hcache
  · refine forall_mem_middle.2 ⟨consistent_of_edit hworking hmeans hsaved, fun q hq => ?_⟩
    exact (hconsistent q hq).evolve hevolves (hothers q hq).input
  · refine forall_mem_middle.2
      ⟨htraced.edit h.working htarget hlatest hevolves hsaved, fun q hq => ?_⟩
    exact (htracedOthers q hq).evolve hevolves hnow.working (hothers q hq)

end Edit

theorem on_run (ps : List Program) (s : Site) :
    ∃ s', s'.files = ((S.stage.pass ps).on s).2.files ∧ (S.stage.run ps).on s =
      (((S.stage.pass ps).on s).1.map fun ledger => (ledger.report, ledger.programs), s') :=
  S.stage.on_run ps s

theorem Holds.run (h : S.Holds s.files ps) :
    S.Holds ((S.stage.run ps).on s).2.files (programsAfter ps ((S.stage.run ps).on s).1) := by
  obtain ⟨s', hfiles, hrun⟩ := on_run (S := S) ps s
  rw [hrun, hfiles]
  rcases on_pass h with ⟨e, s₁, hpass, hholds⟩ | ⟨ledger, s₁, hpass, hholds, -, -⟩
  · rw [hpass]
    exact hholds
  · rw [hpass]
    exact hholds

theorem History.holds (h : S.History site ps) : S.Holds site.files ps := by
  induction h with
  | begins h => exact h.holds
  | edit h hlatest hmeans hsave ih => exact ih.edit hlatest hmeans hsave
  | run time h ih => exact (ih.atTime time).run

variable (S) in
/-- The recorded output of a program is the text of what the train without memos and snapshots
answers, on any site, for the tree that was parsed. -/
def Current (s : Site) (p : Program) : Prop :=
  ∃ output t r, p.optimized = some output ∧ ((Tree.load p.intermediate).on s).1 = .ok t ∧
    (∀ other, ((S.train.plain.optimization.apply t).on other).1 = .ok r) ∧
    s.files.readText output = .ok r.render

theorem Correct.current {p : Program} (h : S.Correct s.files p) : S.Current s p := by
  obtain ⟨place, t, r, time, -, hrecorded, ⟨raw, parsed, hparsed, ht⟩, hr, hstat⟩ := h
  refine ⟨S.stage.output place, t, r, hrecorded, ?_, fun other => ?_, ?_⟩
  · rw [Tree.on_load_of_stat_file hparsed ht]
  · have hanswer : S.train.plain.answer t = .ok r := hr
    rw [Train.fst_on_apply_of_plain rfl t other, hanswer]
    rfl
  · exact FileSystem.readText_eq_ok.2 ⟨_, time, hstat, Bytes.fromUTF8?_toUTF8 _⟩

/-- After a run at any point of a history, the outputs of all programs that were skipped or
recomputed are current. -/
theorem outputs_current_after_run (h : S.History site ps) (time : Nat) {report : Report}
    {ps' : List Program}
    (hrun : (S.stage.run ps).on (site.atTime time) = (.ok (report, ps'), site')) :
    ∃ ledger, ((S.stage.pass ps).on (site.atTime time)).1 = .ok ledger ∧
      report = ledger.report ∧ ps' = ledger.programs ∧ ps'.map (·.name) = ps.map (·.name) ∧
      ∀ line ∈ ledger, line.fate = .skipped ∨ line.fate = .worked (.ok .recomputed) →
        S.Current site' line.program := by
  obtain ⟨s', hfiles, heq⟩ := on_run (S := S) ps (site.atTime time)
  rw [heq] at hrun
  rcases on_pass (h.holds.atTime time) with
    ⟨e, s₁, hpass, -⟩ | ⟨ledger, s₁, hpass, -, hsettled, hnames⟩
  · rw [hpass] at hrun
    cases hrun
  · rw [hpass] at hrun hfiles
    cases hrun
    refine ⟨ledger, by rw [hpass], rfl, rfl, hnames, fun line hline hfate => ?_⟩
    have hcorrect := (hsettled line hline).correct hfate
    rw [← hfiles] at hcorrect
    exact hcorrect.current

/-! ## A history of two programs -/

theorem History.edited {before after : List Program} {p : Program} {t : Tree}
    {digest : Option Digest} {time : Nat} (h : S.History site (before ++ p :: after))
    (hbefore : site.files.root.isBefore time = true)
    (hmeans : ∀ d ∈ digest, ∀ place, t.place = .ok place → S.meaning d place = t)
    (hsave : ((t.save p.intermediate).on (site.atTime time)).1 = .ok ()) :
    S.History ((t.save p.intermediate).on (site.atTime time)).2
      (before ++ { p with digest := digest } :: after) :=
  .edit h (fun _ _ => Entry.modified_lt_of_get? hbefore) hmeans (Prod.ext hsave rfl)

theorem History.ran {time : Nat} {report : Report} {ps' : List Program} (h : S.History site ps)
    (hrun : ((S.stage.run ps).on (site.atTime time)).1 = .ok (report, ps')) :
    S.History ((S.stage.run ps).on (site.atTime time)).2 ps' := by
  have hran := h.run time
  rwa [hrun] at hran

theorem out_not_above_cache :
    ¬ (Path.mk "out").key ["work"] <+: (Path.mk "cache").key ["work"] := by
  decide +kernel

theorem cache_not_above_out :
    ¬ (Path.mk "cache").key ["work"] <+: (Path.mk "out").key ["work"] := by
  decide +kernel

def marking : Setting where
  train := { steps := [⟨"mark", fun t => .ok (t.addError ⟨.warning, "odd", none, none⟩)⟩] }
  config := {}
  layout := ⟨⟨"out"⟩, ⟨"cache"⟩⟩
  working := ["work"]
  meaning _ _ := .ofName "a"
  snapshots := .inl rfl
  target_apart := out_not_above_cache
  cache_apart := cache_not_above_out
  fits d place r h := by
    obtain rfl := Except.ok.inj h
    have hdiagnostic : (Diagnostic.mk .warning "odd" none none).Fits := ⟨by decide, by simp⟩
    exact (Tree.fits_ofName (by decide)).addError hdiagnostic (by decide)

/-- Both trees are written and optimized, and the first is written once more: it is due again and
found in its memo, and the second is skipped. -/
theorem outputs_current_after_run_mixed :
    let a : Program := { name := "a", source := ⟨"a.eo"⟩, intermediate := ⟨"in/a.json"⟩ }
    let b : Program := { name := "b", source := ⟨"b.eo"⟩, intermediate := ⟨"in/b.json"⟩ }
    let d : Digest := ⟨List.replicate 16 7, rfl⟩
    let a' := { a with digest := some d, optimized := some ⟨"out/03-optimize/a.json"⟩ }
    let b' := { b with optimized := some ⟨"out/03-optimize/b.json"⟩ }
    ∃ site site', marking.History site [a', b'] ∧
      (marking.stage.run [a', b']).on (site.atTime 5) =
        (.ok ({ total := 2, skipped := 1, recomputed := 1 }, [a', b']), site') ∧
      marking.Current site' a' ∧ marking.Current site' b' := by
  intro a b d a' b'
  let s : Site := { files := ⟨.directory [("work", .directory [] 0)] 0, ["work"], 0⟩ }
  have hbegins : marking.Begins s ([] ++ a :: [b]) := by
    refine ⟨rfl, ⟨?_, by decide +kernel, by decide +kernel, by decide +kernel⟩, ?_, ?_, ?_⟩
    · have ha : a.place = .ok ⟨["a"]⟩ := by decide +kernel
      have hb : b.place = .ok ⟨["b"]⟩ := by decide +kernel
      simp [ha, hb]
    · simp [a, b]
    · intro k raw time _
      cases k with
      | nil => simp [s, FileSystem.get?, Entry.get?]
      | cons n k =>
        by_cases hn : n = "work"
        · subst hn
          cases k <;> simp [s, FileSystem.get?, Entry.get?, Entry.child?]
        · simp [s, FileSystem.get?, Entry.get?, Entry.child?, List.lookup_cons, beq_false_of_ne hn]
    · simp [a, b, Consistent]
  let s₁ := (((Tree.ofName "a").save a.intermediate).on (s.atTime 1)).2
  let s₂ := (((Tree.ofName "b").save b.intermediate).on (s₁.atTime 2)).2
  let s₃ := ((marking.stage.run [{ a with digest := some d }, b]).on (s₂.atTime 3)).2
  let s₄ := (((Tree.ofName "a").save a.intermediate).on (s₃.atTime 4)).2
  -- all that has to be evaluated, in one go
  have hsteps :
      (((Tree.ofName "a").save a.intermediate).on (s.atTime 1)).1 = .ok () ∧
      (((Tree.ofName "b").save b.intermediate).on (s₁.atTime 2)).1 = .ok () ∧
      ((marking.stage.run [{ a with digest := some d }, b]).on (s₂.atTime 3)).1 =
        .ok ({ total := 2, recomputed := 2 }, [a', b']) ∧
      (((Tree.ofName "a").save a.intermediate).on (s₃.atTime 4)).1 = .ok () ∧
      ((marking.stage.pass [a', b']).on (s₄.atTime 5)).1 =
        .ok [⟨a', .worked (.ok .recomputed)⟩, ⟨b', .skipped⟩] ∧
      s.files.root.isBefore 1 = true ∧ s₁.files.root.isBefore 2 = true ∧
      s₃.files.root.isBefore 4 = true := by
    decide +kernel
  obtain ⟨hsave₁, hsave₂, hrun₃, hsave₄, hpass₅, hbefore₁, hbefore₂, hbefore₄⟩ := hsteps
  have h₁ : marking.History s₁ ([{ a with digest := some d }] ++ b :: []) :=
    (History.begins hbegins).edited hbefore₁ (fun _ _ _ _ => rfl) hsave₁
  have h₂ : marking.History s₂ ([{ a with digest := some d }] ++ b :: []) :=
    h₁.edited hbefore₂ (by simp) hsave₂
  have h₃ : marking.History s₃ ([] ++ a' :: [b']) := h₂.ran hrun₃
  have h₄ : marking.History s₄ ([] ++ a' :: [b']) :=
    h₃.edited hbefore₄ (fun _ _ _ _ => rfl) hsave₄
  obtain ⟨s₅, -, hrun⟩ := on_run (S := marking) [a', b'] (s₄.atTime 5)
  rw [hpass₅] at hrun
  obtain ⟨ledger, hpass, -, -, -, hcurrent⟩ := outputs_current_after_run h₄ 5 hrun
  obtain rfl := Except.ok.inj (hpass₅.symm.trans hpass)
  rw [List.forall_mem_cons, List.forall_mem_singleton] at hcurrent
  exact ⟨s₄, s₅, h₄, hrun, hcurrent.1 (.inr rfl), hcurrent.2 (.inl rfl)⟩

end Trainyard.Stage.Optimize.Setting
