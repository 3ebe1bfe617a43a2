import Trainyard.Proofs.Stage.Binarize.Work

/-!
# Histories of the binarize stage

Sources and optimized trees are edited and the stage is run, in any order and any number of
times. After each run, every program that was skipped or recomputed has the code from what the
train makes of its optimized tree now. Skipping looks at times only, a failed run may leave a new
tree beside old code, and an answer may come from a memo; that all this is safe is an invariant
of the history. It needs that no path passes where code goes: a directory there would be taken
for code that is up to date.
-/

set_option autoImplicit false

namespace Trainyard.Stage.Binarize.Setting

variable (S : Setting)

/-! ## Programs of a history -/

/-- Programs with different places. Their inputs are different files outside of the directories
that the stage writes to, and neither these directories nor the inputs are reached by way of
code. -/
structure Units (ps : List Program) : Prop where
  places : ps.Pairwise Program.Elsewhere
  distinct : ((ps.flatMap inputs).map (Path.key S.working)).Nodup
  outside : ∀ p ∈ ps, S.Outside p
  clear : ∀ p ∈ ps, ∀ place, p.place = .ok place → S.Clear place ∧
    ∀ q ∈ ps, ∀ i ∈ inputs q, S.codeKey place ∉ i.way S.working

def fixed (p : Program) : Program := { p with digest := none, binarized := none }

variable {S} {fs fs' : FileSystem} {ps ps' : List Program} {p q : Program} {s s' : Site}

theorem units_map_fixed : S.Units (ps.map fixed) ↔ S.Units ps := by
  have hplaces : (ps.map fixed).Pairwise Program.Elsewhere ↔ ps.Pairwise Program.Elsewhere :=
    List.pairwise_map
  have hinputs : (ps.map fixed).flatMap inputs = ps.flatMap inputs := List.flatMap_map ..
  have hall {P : Program → Prop} : (∀ p ∈ ps.map fixed, P p) ↔ ∀ p ∈ ps, P (fixed p) :=
    List.forall_mem_map
  constructor
  · intro h
    refine ⟨hplaces.1 h.places, hinputs ▸ h.distinct, hall.1 h.outside, ?_⟩
    intro p hp place hplace
    obtain ⟨hclear, hways⟩ := hall.1 h.clear p hp place hplace
    exact ⟨hclear, hall.1 hways⟩
  · intro h
    refine ⟨hplaces.2 h.places, hinputs ▸ h.distinct, hall.2 h.outside, hall.2 ?_⟩
    intro p hp place hplace
    obtain ⟨hclear, hways⟩ := h.clear p hp place hplace
    exact ⟨hclear, hall.2 hways⟩

theorem Units.congr (h : S.Units ps) (hsame : ps'.map fixed = ps.map fixed) : S.Units ps' :=
  units_map_fixed.1 (hsame ▸ units_map_fixed.2 h)

theorem Units.ne_of_others {before after : List Program} (h : S.Units (before ++ p :: after))
    {i j : Path} (hi : i ∈ inputs p) (hq : q ∈ before ++ after) (hj : j ∈ inputs q) :
    j.key S.working ≠ i.key S.working := by
  have hdistinct := h.distinct
  rw [((List.perm_middle.flatMap_right inputs).map _).nodup_iff, List.flatMap_cons,
    List.map_append] at hdistinct
  have hj := List.mem_map_of_mem (f := Path.key S.working) (List.mem_flatMap_of_mem hq hj)
  exact ((List.nodup_append.1 hdistinct).2.2 _ (List.mem_map_of_mem hi) _ hj).symm

theorem Units.source_ne (h : S.Units ps) (hp : p ∈ ps) (hq : q ∈ ps) {input : Path}
    (hinput : input ∈ q.optimized) : input.key S.working ≠ p.source.key S.working := by
  obtain ⟨before, after, rfl⟩ := List.append_of_mem hp
  rcases List.mem_cons.1 (List.perm_middle.mem_iff.1 hq) with rfl | hother
  · have hdistinct := h.distinct
    rw [((List.perm_middle.flatMap_right inputs).map _).nodup_iff, List.flatMap_cons,
      List.map_append] at hdistinct
    have hown := (List.nodup_append.1 hdistinct).1
    rw [Option.mem_def] at hinput
    rw [inputs, hinput] at hown
    simpa [eq_comm] using hown
  · exact h.ne_of_others List.mem_cons_self hother (mem_inputs hinput)

/-! ## The invariant -/

variable (S) in
structure Holds (fs : FileSystem) (ps : List Program) : Prop where
  working : fs.working = S.working
  units : S.Units ps
  sound : S.bench.Sound fs
  consistent : ∀ p ∈ ps, S.Consistent fs p
  traced : ∀ p ∈ ps, S.Traced fs p
  bare : ∀ p ∈ ps, ∀ place, p.place = .ok place → fs.Bare S.working (S.codeKey place)

theorem Holds.atTime (h : S.Holds s.files ps) (time : Nat) :
    S.Holds (s.atTime time).files ps := by
  refine ⟨h.working, h.units, h.sound, h.consistent, ?_, fun p hp place hplace => ?_⟩
  · simpa only [Traced, Correct, Tree.FoundAt, Site.stat_atTime, Site.item?_atTime] using h.traced
  · exact ⟨h.working, (h.bare p hp place hplace).free⟩

theorem Holds.prepare (h : S.Holds s.files ps) :
    S.Holds ((S.stage.prepare ps).on s).2.files ps := by
  have he := S.stage.evolves_on_prepare ps s
  have hspares (p : Program) : S.Spares (fun _ _ => False) p :=
    ⟨fun _ _ _ => id, fun _ _ _ => id⟩
  refine ⟨he.working.trans h.working, h.units, h.sound.evolve he fun _ _ _ _ => False.elim,
    fun p hp => (h.consistent p hp).evolve he (hspares p),
    fun p hp => (h.traced p hp).evolve he h.working (hspares p), fun p hp place hplace => ?_⟩
  obtain ⟨hclear, -⟩ := h.units.clear p hp place hplace
  exact hclear.avoids_prepare ps s (h.bare p hp place hplace)

theorem Holds.ready (h : S.Holds fs ps) :
    ∀ item ∈ Plan.make (S.stage.standing fs) ps, S.Ready fs item.1 item.2 := by
  intro item hitem
  obtain ⟨p, hp, rfl⟩ := List.mem_map.1 hitem
  refine ⟨h.units.outside p hp, h.consistent p hp, h.traced p hp, fun hfresh => ?_⟩
  exact (h.traced p hp).correct_of_fresh h.working
    (fun place hplace => (h.bare p hp place hplace).free) hfresh

theorem Settled.fixed {line : Line} (h : S.Settled fs p line) : fixed line.program = fixed p := by
  obtain ⟨code, hrecord⟩ := h.record
  rw [hrecord]
  rfl

/-- A pass that makes its directories settles all programs. -/
theorem on_pass (h : S.Holds s.files ps) :
    (∃ e s', (S.stage.pass ps).on s = (.error e, s') ∧ S.Holds s'.files ps) ∨
      ∃ ledger s', (S.stage.pass ps).on s = (.ok ledger, s') ∧ S.Holds s'.files ledger.programs ∧
        List.Forall₂ (S.Settled s'.files) ps ledger := by
  have hprepared := h.prepare
  rcases hprepare : (S.stage.prepare ps).on s with ⟨made, s₁⟩
  rw [hprepare] at hprepared
  cases made with
  | error e => exact .inl ⟨e, s₁, on_pass_of_unprepared hprepare, hprepared⟩
  | ok u =>
    obtain ⟨s₂, hfiles, hpass⟩ := on_pass_of_prepare hprepare
    rw [← hfiles] at hprepared
    have hprograms : (Plan.make (S.stage.standing s₂.files) ps).map (·.1) = ps := by
      simp [Plan.make, Function.comp_def]
    obtain ⟨ledger, s', hexecute, ⟨hworking, hsound⟩, hlines, -⟩ :=
      S.routine.on_execute _ ⟨hprepared.working, hprepared.sound⟩ hprepared.ready
        (by rw [hprograms]; exact hprepared.units.places)
    rw [hexecute] at hpass
    rw [Plan.make, List.forall₂_map_left_iff] at hlines
    have hfixed := map_programs hlines fun _ _ => Settled.fixed
    refine .inr ⟨ledger, s', hpass, ⟨hworking, h.units.congr hfixed, hsound,
      forall_mem_programs hlines fun _ _ _ hline => hline.consistent,
      forall_mem_programs hlines fun _ _ _ hline => hline.traced,
      forall_mem_programs hlines fun q hq line hline place hplace => ?_⟩, hlines⟩
    obtain ⟨code, hrecord⟩ := hline.record
    rw [hrecord] at hplace
    obtain ⟨hclear, -⟩ := h.units.clear q hq place hplace
    have havoids := hclear.avoids_pass (Place.proper_of_ofName hplace) ps s
      (h.bare q hq place hplace)
    rwa [hpass] at havoids

/-! ## Edits -/

section Edit

variable {i input : Path} {text : String} {t : Tree} {digest : Option Digest}
  {before after : List Program}

def Edited (S : Setting) (i : Path) : FileSystem.Writes := fun k _ => k = i.key S.working

theorem evolves_on_edit (hw : s.files.working = S.working)
    (hedit : (Job.writeText TreeError.io i text).on s = (.ok (), s')) :
    s.files.Evolves (S.Edited i) s'.files := by
  have hwrites : S.Edited i (i.key S.working) text.toUTF8 := rfl
  have hevolves := Job.within_writeText TreeError.io hwrites s hw
  rwa [hedit] at hevolves

theorem not_edited_codeKey (hi : ¬ S.dirKey <+: i.key S.working) {place : Place}
    (hp : place.Proper) (raw : ByteArray) : ¬ S.Edited i (S.codeKey place) raw :=
  fun hkey => hi (Eq.subst (motive := (S.dirKey <+: ·)) hkey (dirKey_below_codeKey hp))

theorem spares_edited (hi : ¬ S.dirKey <+: i.key S.working)
    (hne : ∀ input ∈ q.optimized, input.key S.working ≠ i.key S.working) :
    S.Spares (S.Edited i) q :=
  ⟨fun input hinput _ => hne input hinput, fun _ raw hplace =>
    not_edited_codeKey hi (Place.proper_of_ofName hplace) raw⟩

theorem Holds.edited (h : S.Holds s.files ps) (hp : p ∈ ps) (hi : i ∈ inputs p)
    (hedit : (Job.writeText TreeError.io i text).on s = (.ok (), s')) :
    S.bench.Sound s'.files ∧ ∀ q ∈ ps, ∀ place, q.place = .ok place →
      s'.files.Bare S.working (S.codeKey place) := by
  constructor
  · refine h.sound.evolve (evolves_on_edit h.working hedit) fun d place raw hproper hkey => ?_
    have hcache : S.cacheKey <+: i.key S.working :=
      Eq.subst (motive := (S.cacheKey <+: ·)) hkey (S.bench.cache_below_slot hproper)
    exact absurd hcache (h.units.outside p hp i hi).2
  · intro q hq place hplace
    obtain ⟨-, hways⟩ := h.units.clear q hq place hplace
    have havoids := Job.avoids_writeText TreeError.io text (fun dir hdir hmem =>
      hways p hp i hi (Path.mem_way_of_parent? hdir hmem)) s (h.bare q hq place hplace)
    rwa [hedit] at havoids

theorem Holds.editSource (h : S.Holds s.files ps) (hp : p ∈ ps)
    (hedit : (Job.writeText TreeError.io p.source text).on s = (.ok (), s')) :
    S.Holds s'.files ps := by
  have he := evolves_on_edit h.working hedit
  have hsource : p.source ∈ inputs p := List.mem_cons_self
  obtain ⟨hsound, hbare⟩ := h.edited hp hsource hedit
  have hspares : ∀ q ∈ ps, S.Spares (S.Edited p.source) q := fun q hq =>
    spares_edited (h.units.outside p hp p.source hsource).1 fun _ hinput =>
      h.units.source_ne hp hq hinput
  exact ⟨he.working.trans h.working, h.units, hsound,
    fun q hq => (h.consistent q hq).evolve he (hspares q hq),
    fun q hq => (h.traced q hq).evolve he h.working (hspares q hq), hbare⟩

theorem traced_of_older {time : Nat} {raw : ByteArray} (hinput : p.optimized = some input)
    (hstat : fs.stat input = .ok (.file raw time))
    (holder : ∀ place raw out, p.place = .ok place →
      fs.item? (S.codeKey place) = some (.file raw out) → out < time) : S.Traced fs p := by
  intro place raw' out hplace hitem
  have hlt := holder place raw' out hplace hitem
  exact ⟨input, raw, time, hinput, hstat, fun hle => by omega⟩

/-- An edit of an optimized tree keeps the files of all other programs, and its own program is
due. -/
theorem Holds.editOptimized (h : S.Holds s.files (before ++ p :: after))
    (hinput : p.optimized = some input)
    (hlatest : ∀ k e, s.files.get? k = some e → e.modified < s.files.now)
    (hmeans : S.bench.Means digest t) (hsave : (t.save input).on s = (.ok (), s')) :
    S.Holds s'.files (before ++ { p with digest := digest } :: after) := by
  have he := evolves_on_edit h.working hsave
  have hworking := he.working.trans h.working
  have hsaved := Tree.on_save_ok hsave
  have hp : p ∈ before ++ p :: after := by simp
  have hi : input ∈ inputs p := mem_inputs hinput
  have hdir := (h.units.outside p hp input hi).1
  obtain ⟨hsound, hbare⟩ := h.edited hp hi hsave
  have hspares : ∀ q ∈ before ++ after, S.Spares (S.Edited input) q := fun q hq =>
    spares_edited hdir fun _ hother => h.units.ne_of_others hi hq (mem_inputs hother)
  obtain ⟨-, hconsistent⟩ := forall_mem_middle.1 h.consistent
  obtain ⟨-, htraced⟩ := forall_mem_middle.1 h.traced
  refine ⟨hworking, h.units.congr (by simp [fixed]), hsound, ?_, ?_, ?_⟩
  · refine forall_mem_middle.2 ⟨fun i hi => ?_, fun q hq =>
      (hconsistent q hq).evolve he (hspares q hq)⟩
    obtain rfl : input = i := Option.some.inj (hinput.symm.trans hi)
    exact S.bench.consistent_of_saved hworking hmeans hsaved
  · refine forall_mem_middle.2 ⟨traced_of_older hinput hsaved ?_, fun q hq =>
      (htraced q hq).evolve he h.working (hspares q hq)⟩
    intro place raw out hplace hitem
    rcases he.file_cases hitem with hbefore | ⟨hwritten, -⟩
    · exact hlatest _ _ (FileSystem.item?_eq_file.1 hbefore)
    · exact absurd hwritten (not_edited_codeKey hdir (Place.proper_of_ofName hplace) raw)
  · exact forall_mem_middle.2 (forall_mem_middle.1 hbare)

end Edit

/-! ## Histories -/

variable (S) in
/-- Nothing lies below the directory for code and no file below that of the memos, and digests
stand for the trees that are there. -/
structure Begins (site : Site) (ps : List Program) : Prop where
  working : site.files.working = S.working
  units : S.Units ps
  new : ∀ name below, site.files.get? (S.dirKey ++ name :: below) = none
  empty : ∀ k raw time, S.cacheKey <+: k → site.files.get? k ≠ some (.file raw time)
  consistent : ∀ p ∈ ps, S.Consistent site.files p

variable (S) in
/-- An edit writes the optimized tree of a program anew, later than all that exists, and sets the
digest, or it writes a source. Runs may come at any time; one that fails as a whole leaves all
records. -/
inductive History : Site → List Program → Prop
  | begins {site : Site} {ps : List Program} (h : S.Begins site ps) : History site ps
  | optimized {site site' : Site} {before after : List Program} {p : Program} {input : Path}
      {t : Tree} {digest : Option Digest} {time : Nat}
      (h : History site (before ++ p :: after)) (hinput : p.optimized = some input)
      (hlatest : ∀ k e, site.files.get? k = some e → e.modified < time)
      (hmeans : ∀ d ∈ digest, ∀ place, t.place = .ok place → S.meaning d place = t)
      (hsave : (t.save input).on (site.atTime time) = (.ok (), site')) :
      History site' (before ++ { p with digest := digest } :: after)
  | source {site site' : Site} {ps : List Program} {p : Program} {text : String} {time : Nat}
      (h : History site ps) (hp : p ∈ ps)
      (hwrite : (Job.writeText TreeError.io p.source text).on (site.atTime time) =
        (.ok (), site')) : History site' ps
  | run {site site' : Site} {ps ps' : List Program} {report : Report} {time : Nat}
      (h : History site ps)
      (hrun : (S.stage.run ps).on (site.atTime time) = (.ok (report, ps'), site')) :
      History site' ps'
  | failed {site site' : Site} {ps : List Program} {e : WorkError} {time : Nat}
      (h : History site ps)
      (hrun : (S.stage.run ps).on (site.atTime time) = (.error e, site')) : History site' ps

variable {site site' : Site}

theorem Begins.holds (h : S.Begins site ps) : S.Holds site.files ps := by
  have hnone {place : Place} (hp : place.Proper) :
      site.files.item? (S.codeKey place) = none := by
    obtain ⟨front, last, hkey⟩ := exists_codeKey (S := S) hp
    obtain ⟨name, below, hnames⟩ := List.exists_cons_of_ne_nil
      (show front ++ [last ++ ".rs"] ≠ [] by simp)
    rw [FileSystem.item?_eq_map, hkey, hnames, h.new]
    rfl
  refine ⟨h.working, h.units, S.bench.sound_of_empty h.empty, h.consistent, ?_, ?_⟩
  · intro p hp place raw out hplace hitem
    rw [hnone (Place.proper_of_ofName hplace)] at hitem
    cases hitem
  · intro p hp place hplace
    refine ⟨h.working, ?_⟩
    rw [hnone (Place.proper_of_ofName hplace)]
    exact nofun

theorem Holds.run (h : S.Holds s.files ps) :
    (∃ e s', (S.stage.run ps).on s = (.error e, s') ∧ S.Holds s'.files ps) ∨
      ∃ ledger s', ((S.stage.pass ps).on s).1 = .ok ledger ∧
        (S.stage.run ps).on s = (.ok (ledger.report, ledger.programs), s') ∧
        S.Holds s'.files ledger.programs ∧ List.Forall₂ (S.Settled s'.files) ps ledger := by
  have henabled : S.stage.config.enabled = true := S.enabled
  obtain ⟨s', hfiles, hrun⟩ := Binarize.on_run henabled ps s
  rcases on_pass h with ⟨e, s₁, hpass, hholds⟩ | ⟨ledger, s₁, hpass, hholds, hlines⟩
  · rw [hpass] at hfiles hrun
    rw [← hfiles] at hholds
    exact .inl ⟨e, s', hrun, hholds⟩
  · rw [hpass] at hfiles hrun
    rw [← hfiles] at hholds hlines
    exact .inr ⟨ledger, s', by rw [hpass], hrun, hholds, hlines⟩

theorem History.holds (h : S.History site ps) : S.Holds site.files ps := by
  induction h with
  | begins h => exact h.holds
  | optimized h hinput hlatest hmeans hsave ih =>
    refine (ih.atTime _).editOptimized hinput ?_ hmeans hsave
    exact hlatest
  | source h hp hwrite ih => exact (ih.atTime _).editSource hp hwrite
  | run h hrun ih =>
    rcases (ih.atTime _).run with ⟨e, s', hfail, -⟩ | ⟨ledger, s', -, hok, hholds, -⟩
    · rw [hfail] at hrun
      cases hrun
    · rw [hok] at hrun
      cases hrun
      exact hholds
  | failed h hrun ih =>
    rcases (ih.atTime _).run with ⟨e, s', hfail, hholds⟩ | ⟨ledger, s', -, hok, -, -⟩
    · rw [hfail] at hrun
      cases hrun
      exact hholds
    · rw [hok] at hrun
      cases hrun

variable (S) in
/-- The recorded code of a program is that of what the train without memos and snapshots answers,
on any site, for the optimized tree. -/
def Current (s : Site) (p : Program) : Prop :=
  ∃ place input t r code, p.place = .ok place ∧ p.optimized = some input ∧
    p.binarized = some (S.stage.codeOutput place) ∧ ((Tree.load input).on s).1 = .ok t ∧
    (∀ other, ((S.train.plain.optimization.apply t).on other).1 = .ok r) ∧
    r.require Tree.codeKey = .ok code ∧ s.files.readText (S.stage.codeOutput place) = .ok code

theorem Correct.current (h : S.Correct s.files p) : S.Current s p := by
  obtain ⟨place, input, t, r, code, time, hplace, hinput, hrecord, ht, hr, hcode, hstat⟩ := h
  obtain ⟨raw, modified, hfile, hspells⟩ := ht
  refine ⟨place, input, t, r, code, hplace, hinput, hrecord, ?_, fun other => ?_, hcode, ?_⟩
  · rw [Tree.on_load_of_stat_file hfile hspells]
  · have hanswer : S.train.plain.answer t = .ok r := hr
    rw [Train.fst_on_apply_of_plain rfl t other, hanswer]
    rfl
  · exact FileSystem.readText_eq_ok.2 ⟨_, time, hstat, Bytes.fromUTF8?_toUTF8 _⟩

/-- After a run at any point of a history, the code of all programs that were skipped or
recomputed is current. -/
theorem code_current_after_run (h : S.History site ps) (time : Nat) {report : Report}
    (hrun : (S.stage.run ps).on (site.atTime time) = (.ok (report, ps'), site')) :
    ∃ ledger, ((S.stage.pass ps).on (site.atTime time)).1 = .ok ledger ∧
      report = ledger.report ∧ ps' = ledger.programs ∧
      List.Forall₂ (fun p line => (∃ code, line.program = { p with binarized := code }) ∧
        (line.fate = .skipped ∨ line.fate = .worked (.ok .recomputed) →
          S.Current site' line.program)) ps ledger := by
  rcases (h.holds.atTime time).run with
    ⟨e, s', hfail, -⟩ | ⟨ledger, s', hpass, hok, -, hlines⟩
  · rw [hfail] at hrun
    cases hrun
  · rw [hok] at hrun
    cases hrun
    exact ⟨ledger, hpass, rfl, rfl, hlines.imp fun p line hline =>
      ⟨hline.record, fun hfate => (hline.correct hfate).current⟩⟩

/-! ## A history of two programs -/

def coding (layout : Layout) (htarget : ¬ layout.target.key ["work"] <+: layout.cache.key ["work"])
    (hcache : ¬ layout.cache.key ["work"] <+: layout.target.key ["work"]) : Setting where
  train := { steps := [⟨"code", fun t =>
    .ok (t.setAttribute Tree.codeKey ("struct " ++ t.nameOrAnonymous))⟩] }
  config := { enabled := true }
  layout := layout
  working := ["work"]
  meaning _ _ := .ofName "a"
  enabled := rfl
  target_apart := htarget
  cache_apart := hcache
  fits d place r h := by
    obtain rfl := Except.ok.inj h
    refine ⟨⟨by decide, ?_⟩, by decide, nofun, by decide, nofun⟩
    unfold Binary.Fits
    decide

theorem History.optimized_on {before after : List Program} {t : Tree} {digest : Option Digest}
    {time : Nat} (h : S.History site (before ++ p :: after)) {input : Path}
    (hinput : p.optimized = some input) (hbefore : site.files.root.isBefore time = true)
    (hmeans : ∀ d ∈ digest, ∀ place, t.place = .ok place → S.meaning d place = t)
    (hsave : ((t.save input).on (site.atTime time)).1 = .ok ()) :
    S.History ((t.save input).on (site.atTime time)).2
      (before ++ { p with digest := digest } :: after) :=
  .optimized h hinput (fun _ _ => Entry.modified_lt_of_get? hbefore) hmeans (Job.on_of_fst hsave)

def workplace : Site := { files := ⟨.directory [("work", .directory [] 0)] 0, ["work"], 0⟩ }

theorem get?_workplace {k : Key} (h : k ≠ []) (hwork : k ≠ ["work"]) :
    workplace.files.get? k = none := by
  cases k with
  | nil => exact absurd rfl h
  | cons n k =>
    by_cases hn : n = "work"
    · subst hn
      cases k with
      | nil => exact absurd rfl hwork
      | cons m k => simp [workplace, FileSystem.get?, Entry.get?, Entry.child?]
    · simp [workplace, FileSystem.get?, Entry.get?, Entry.child?, List.lookup_cons,
        beq_false_of_ne hn]

/-- Both trees and a source are written and code is made of them, and the first tree is written
once more: its program is due again and found in its memo, and the second is skipped. -/
theorem code_current_after_run_mixed :
    let S := coding ⟨⟨"out"⟩, ⟨"cache"⟩⟩ (by decide +kernel) (by decide +kernel)
    let d : Digest := ⟨List.replicate 16 7, rfl⟩
    let a : Program := { name := "a", source := ⟨"a.eo"⟩, intermediate := ⟨"mid/a.json"⟩,
                         optimized := some ⟨"in/a.json"⟩ }
    let b : Program := { name := "x.b", source := ⟨"b.eo"⟩, intermediate := ⟨"mid/b.json"⟩,
                         optimized := some ⟨"in/b.json"⟩ }
    let a' := { a with digest := some d, binarized := some ⟨"out/binarize/a.rs"⟩ }
    let b' := { b with binarized := some ⟨"out/binarize/x/b.rs"⟩ }
    ∃ site site', S.History site [a', b'] ∧
      (S.stage.run [a', b']).on (site.atTime 6) =
        (.ok ({ total := 2, skipped := 1, recomputed := 1 }, [a', b']), site') ∧
      S.Current site' a' ∧ S.Current site' b' := by
  intro S d a b a' b'
  have hbegins : S.Begins workplace ([] ++ a :: [b]) := by
    have hunits : S.Units [a, b] := by
      refine ⟨by decide +kernel, by decide +kernel, ?_, ?_⟩
      · unfold Outside
        decide +kernel
      · have ha : a.place = .ok ⟨["a"]⟩ := by decide +kernel
        have hb : b.place = .ok ⟨["x", "b"]⟩ := by decide +kernel
        have hall : ∀ place ∈ [⟨["a"]⟩, ⟨["x", "b"]⟩],
            (S.codeKey place ∉ S.stage.dir.way S.working ∧
              S.codeKey place ∉ S.layout.binarizedCacheDir.way S.working) ∧
            ∀ q ∈ [a, b], ∀ i ∈ inputs q, S.codeKey place ∉ i.way S.working := by
          decide +kernel
        intro p hp place hplace
        have hplace : place ∈ [⟨["a"]⟩, ⟨["x", "b"]⟩] := by
          rcases List.mem_pair.1 hp with rfl | rfl
          · rw [ha] at hplace
            cases hplace
            simp
          · rw [hb] at hplace
            cases hplace
            simp
        obtain ⟨⟨hdir, hcache⟩, hways⟩ := hall place hplace
        exact ⟨⟨hdir, hcache⟩, hways⟩
    have hdir : S.dirKey = ["work", "out", "binarize"] := by decide +kernel
    have hcache : S.cacheKey = ["work", "cache", "binarized"] := by decide +kernel
    refine ⟨rfl, hunits, fun name below => ?_, fun k raw time hk => ?_, ?_⟩
    · rw [hdir]
      exact get?_workplace (by simp) (by simp)
    · rw [hcache] at hk
      obtain ⟨below, rfl⟩ := hk
      rw [get?_workplace (by simp) (by simp)]
      exact nofun
    · simp [Consistent, Bench.Consistent, a, b]
  let s₁ := (((Tree.ofName "a").save ⟨"in/a.json"⟩).on (workplace.atTime 1)).2
  let s₂ := (((Tree.ofName "x.b").save ⟨"in/b.json"⟩).on (s₁.atTime 2)).2
  let s₃ := ((Job.writeText TreeError.io b.source "[] > b").on (s₂.atTime 3)).2
  let s₄ := ((S.stage.run [{ a with digest := some d }, b]).on (s₃.atTime 4)).2
  let s₅ := (((Tree.ofName "a").save ⟨"in/a.json"⟩).on (s₄.atTime 5)).2
  -- all that has to be evaluated, in one go
  have hsteps :
      (((Tree.ofName "a").save ⟨"in/a.json"⟩).on (workplace.atTime 1)).1 = .ok () ∧
      (((Tree.ofName "x.b").save ⟨"in/b.json"⟩).on (s₁.atTime 2)).1 = .ok () ∧
      ((Job.writeText TreeError.io b.source "[] > b").on (s₂.atTime 3)).1 = .ok () ∧
      ((S.stage.run [{ a with digest := some d }, b]).on (s₃.atTime 4)).1 =
        .ok ({ total := 2, recomputed := 2 }, [a', b']) ∧
      (((Tree.ofName "a").save ⟨"in/a.json"⟩).on (s₄.atTime 5)).1 = .ok () ∧
      ((S.stage.pass [a', b']).on (s₅.atTime 6)).1 =
        .ok [⟨a', .worked (.ok .recomputed)⟩, ⟨b', .skipped⟩] ∧
      workplace.files.root.isBefore 1 = true ∧ s₁.files.root.isBefore 2 = true ∧
      s₄.files.root.isBefore 5 = true := by
    decide +kernel
  obtain ⟨hsave₁, hsave₂, hwrite₃, hrun₄, hsave₅, hpass₆, hbefore₁, hbefore₂, hbefore₅⟩ := hsteps
  have h₁ : S.History s₁ ([{ a with digest := some d }] ++ b :: []) :=
    (History.begins hbegins).optimized_on rfl hbefore₁ (fun _ _ _ _ => rfl) hsave₁
  have h₂ : S.History s₂ ([{ a with digest := some d }] ++ b :: []) :=
    h₁.optimized_on rfl hbefore₂ (by simp) hsave₂
  have h₃ : S.History s₃ [{ a with digest := some d }, b] :=
    .source h₂ (p := b) (by simp) (Job.on_of_fst hwrite₃)
  have h₄ : S.History s₄ ([] ++ a' :: [b']) := .run h₃ (Job.on_of_fst hrun₄)
  have h₅ : S.History s₅ ([] ++ a' :: [b']) :=
    h₄.optimized_on rfl hbefore₅ (fun _ _ _ _ => rfl) hsave₅
  rw [List.nil_append] at h₅
  have henabled : S.stage.config.enabled = true := rfl
  obtain ⟨s₆, -, hrun⟩ := Binarize.on_run henabled [a', b'] (s₅.atTime 6)
  rw [hpass₆] at hrun
  obtain ⟨ledger, hpass, -, -, hlines⟩ := code_current_after_run h₅ 6 hrun
  obtain rfl := Except.ok.inj (hpass₆.symm.trans hpass)
  rw [List.forall₂_cons, List.forall₂_cons] at hlines
  exact ⟨s₅, s₆, h₅, hrun, hlines.1.2 (.inr rfl), hlines.2.1.2 (.inl rfl)⟩

/-- A target directory that is reached by way of the code of a program: all else is as it should
be, and the directory that is made there is taken for code. -/
theorem code_missing_after_run :
    let S := coding ⟨⟨"t/binarize/a.rs/../.."⟩, ⟨"cache"⟩⟩ (by decide +kernel) (by decide +kernel)
    let a : Program := { name := "a", source := ⟨"a.eo"⟩, intermediate := ⟨"mid/a.json"⟩,
                         optimized := some ⟨"in/a.json"⟩ }
    ∃ site site', workplace.files.working = S.working ∧
      ((inputs a).map (Path.key S.working)).Nodup ∧ S.Outside a ∧
      (∀ i ∈ inputs a, workplace.files.get? (i.key S.working) = none) ∧
      (∀ name below, workplace.files.get? (S.dirKey ++ name :: below) = none) ∧
      (∀ name below, workplace.files.get? (S.cacheKey ++ name :: below) = none) ∧
      (∀ k e, workplace.files.get? k = some e → e.modified < 1) ∧
      ((Tree.ofName "a").save ⟨"in/a.json"⟩).on (workplace.atTime 1) = (.ok (), site) ∧
      ((S.stage.pass [a]).on (site.atTime 2)).1 = .ok [⟨a, .skipped⟩] ∧
      (S.stage.run [a]).on (site.atTime 2) = (.ok ({ total := 1, skipped := 1 }, [a]), site') ∧
      a.place = .ok ⟨["a"]⟩ ∧
      site'.files.readText (S.stage.codeOutput ⟨["a"]⟩) = .error .isADirectory := by
  intro S a
  let s₁ := (((Tree.ofName "a").save ⟨"in/a.json"⟩).on (workplace.atTime 1)).2
  let s₂ := ((S.stage.run [a]).on (s₁.atTime 2)).2
  have hdir : S.dirKey = ["work", "t", "binarize"] := by decide +kernel
  have hcache : S.cacheKey = ["work", "cache", "binarized"] := by decide +kernel
  have hinputs : (inputs a).map (Path.key S.working) =
      [["work", "a.eo"], ["work", "in", "a.json"]] := by
    decide +kernel
  have hsteps :
      (((Tree.ofName "a").save ⟨"in/a.json"⟩).on (workplace.atTime 1)).1 = .ok () ∧
      ((S.stage.pass [a]).on (s₁.atTime 2)).1 = .ok [⟨a, .skipped⟩] ∧
      ((S.stage.run [a]).on (s₁.atTime 2)).1 = .ok ({ total := 1, skipped := 1 }, [a]) ∧
      a.place = .ok ⟨["a"]⟩ ∧
      s₂.files.readText (S.stage.codeOutput ⟨["a"]⟩) = .error .isADirectory ∧
      workplace.files.root.isBefore 1 = true := by
    decide +kernel
  obtain ⟨hsave, hpass, hrun, hplace, hread, hbefore⟩ := hsteps
  refine ⟨s₁, s₂, rfl, by rw [hinputs]; decide, ?_, ?_, fun name below => ?_, fun name below => ?_,
    fun _ _ => Entry.modified_lt_of_get? hbefore, Job.on_of_fst hsave, hpass, Job.on_of_fst hrun,
    hplace, hread⟩
  · unfold Outside
    decide +kernel
  · intro i hi
    have hkey := List.mem_map_of_mem (f := Path.key S.working) hi
    rw [hinputs] at hkey
    rcases List.mem_pair.1 hkey with hkey | hkey <;>
    · rw [hkey]
      exact get?_workplace (by decide) (by decide)
  · rw [hdir]
    exact get?_workplace (by simp) (by simp)
  · rw [hcache]
    exact get?_workplace (by simp) (by simp)

end Trainyard.Stage.Binarize.Setting
