import Trainyard.Proofs.Stage.Rerun
import Trainyard.Proofs.Stage.Setting

/-!
# What gates keep out of the outputs

A train validates all its results, the computed ones and those that a memo found, and the
optimize stage refuses trees with errors on its own if it is told to. What it saves as an output
meets the configuration. Neither snapshots nor entries of memos go where outputs are, so after a
run every recomputed output holds a tree that does.
-/

set_option autoImplicit false

namespace Trainyard

def Config.Optimize.failsOn (c : Config.Optimize) : Severity → Bool
  | .warning => c.failOnWarning
  | .error => c.failOnError
  | .critical => c.failOnCritical

namespace Tree

def ClearOf (refused : Severity → Bool) (t : Tree) : Prop :=
  ∀ d ∈ t.errors.toList, refused d.severity = false

theorem clearOf_iff {t : Tree} {refused : Severity → Bool} :
    t.ClearOf refused ↔ ∀ severity, refused severity = true → t.count severity = 0 := by
  constructor
  · intro h severity hrefused
    rw [count_eq_zero]
    rintro d hd rfl
    rw [h d hd] at hrefused
    cases hrefused
  · intro h d hd
    cases hrefused : refused d.severity with
    | false => rfl
    | true => exact absurd rfl (count_eq_zero.1 (h d.severity hrefused) d hd)

end Tree

/-! ## Gates -/

theorem Gate.count_of_apply {g : Gate} {t t' : Tree} (h : g.apply t = .ok t') :
    t'.count g.severity = 0 := by
  rw [apply_ok h]
  rw [apply] at h
  split at h
  next hcount => exact hcount
  next => simp at h

theorem Gate.mem_ofConfig {c : Config.Optimize} {severity : Severity} :
    ⟨severity⟩ ∈ ofConfig c ↔ c.failsOn severity = true := by
  cases severity <;> simp [ofConfig, Config.Optimize.failsOn]

theorem Train.count_of_passed {gates : List Gate} {t r : Tree}
    (h : passed (gates.map .gate) t = .ok r) : r = t ∧ ∀ g ∈ gates, r.count g.severity = 0 := by
  induction gates generalizing t with
  | nil =>
    cases h
    exact ⟨rfl, by simp⟩
  | cons g gates ih =>
    rw [List.map_cons, passed] at h
    split at h
    next => cases h
    next t' hpass =>
      have happly : g.apply t = .ok t' := Station.apply_of_pass hpass
      obtain ⟨rfl, hgates⟩ := ih h
      exact ⟨Gate.apply_ok happly, List.forall_mem_cons.2 ⟨Gate.count_of_apply happly, hgates⟩⟩

namespace Stage

theorem count_of_applyTo {tr : Train} {cache : Path} {p : Program} {t r : Tree} {s s' : Site}
    (h : (applyTo tr.optimization cache p t).on s = (.ok r, s')) :
    ∀ g ∈ tr.gates, r.count g.severity = 0 := by
  have hvalidate : ∃ t' s₁, (tr.validate t').on s₁ = (.ok r, s') := by
    rw [applyTo] at h
    cases hd : p.digest with
    | none =>
      rw [hd] at h
      obtain ⟨t', s₁, -, h⟩ := Job.on_bind_ok h
      exact ⟨t', s₁, h⟩
    | some d =>
      rw [hd] at h
      obtain ⟨t', s₁, -, h⟩ := Job.on_bind_ok h
      exact ⟨t', s₁, h⟩
  obtain ⟨t', s₁, h⟩ := hvalidate
  exact (Train.count_of_passed (Train.passed_of_on_run h)).2

def Line.Holds (fs : FileSystem) (good : Tree → Prop) (line : Line) : Prop :=
  ∃ out t time, line.program.optimized = some out ∧ good t ∧
    fs.stat out = .ok (.file t.render.toUTF8 time)

namespace Optimize

/-! ## Outputs apart from all else -/

section Outputs

variable {l : Layout} {working : Key} {place : Place} (hp : place.Proper)

include hp

theorem output_not_below_stepsDir :
    ¬ l.stepsDir.key working <+: (place.within l.optimizeDir "json").key working := by
  rw [Place.key_within working _ hp (by decide), Layout.key_stepsDir, Layout.key_optimizeDir,
    List.append_assoc, List.prefix_append_right_inj, List.singleton_append, List.cons_prefix_cons]
  rintro ⟨hname, -⟩
  exact absurd hname (by decide)

theorem output_ne_slot {dir : Path} {other : Place} (ho : other.Proper) :
    (place.within l.optimizeDir "json").key working ≠ Memo.slot working dir other :=
  Place.key_within_ne working l.optimizeDir dir hp ho (by decide) (by decide) (by decide)
    (by decide) (by decide)

end Outputs

def Approved (stage : Optimize) (working : Key) (good : Tree → Prop) : FileSystem.Writes :=
  fun k raw => ∀ place : Place, place.Proper → k = (stage.output place).key working →
    ∃ t, good t ∧ raw = t.render.toUTF8

variable {tr : Train} {c : Config.Optimize} {l : Layout} {good : Tree → Prop}

def Yields (tr : Train) (c : Config.Optimize) (l : Layout) (good : Tree → Prop) : Prop :=
  ∀ p t s r s', (applyTo tr.optimization l.optimizedCacheDir p t).on s = (.ok r, s') →
    (Optimize.mk tr.optimization c l).accepts r = true → good r

theorem within_task_approved (hsnapshots : tr.snapshots = none ∨ tr.snapshots = some l.stepsDir)
    (hgood : Yields tr c l good) (working : Key) (p : Program) :
    Job.Within working ((Optimize.mk tr.optimization c l).Approved working good)
      ((Optimize.mk tr.optimization c l).task p) := by
  apply obeys_task_of (Job.composes_evolves working _)
    fun r => (Optimize.mk tr.optimization c l).accepts r = true → good r
  · intro t
    apply within_applyTo
    · intro dir hdir other position station b ho place hp heq
      obtain rfl : dir = l.stepsDir := by
        rcases hsnapshots with hnone | hsome
        · rw [hnone] at hdir
          cases hdir
        · rw [hsome] at hdir
          exact (Option.some.inj hdir).symm
      have hbelow := Train.below_snapshotKey working l.stepsDir ho position station
      rw [heq] at hbelow
      exact absurd hbelow (output_not_below_stepsDir hp)
    · intro d _ other s r s' hother _ place hp heq
      exact absurd heq.symm (output_ne_slot hp (Place.proper_of_ofName hother))
  · exact fun t s r s' h => hgood p t s r s' h
  · intro place result hp hresult haccepts
    exact Tree.within_save fun _ _ _ => ⟨result, hresult haccepts, rfl⟩

theorem holds_of_recomputed (hsnapshots : tr.snapshots = none ∨ tr.snapshots = some l.stepsDir)
    (hgood : Yields tr c l good) {ps : List Program} {s s' : Site} {ledger : Ledger}
    (h : Settles ((Optimize.mk tr.optimization c l).pass ps)
      ((Optimize.mk tr.optimization c l).run ps) s ledger s') {line : Line} (hline : line ∈ ledger)
    (hfate : line.fate = .worked (.ok .recomputed)) : line.Holds s'.files good := by
  have htask := within_task_approved (c := c) hsnapshots hgood s.files.working
  obtain ⟨p, s₁, s₂, hdone, hbefore, hafter⟩ :=
    (passes ⟨tr.optimization, c, l⟩).worked_of_settles htask h line hline hfate
  obtain ⟨place, tree, result, s₃, s₄, hplace, happly, hdeliver⟩ := on_task_ok hdone
  rcases on_deliver_ok hdeliver with ⟨-, hrecord, haccepts, s₅, u, hsave, hfiles⟩ | ⟨houtcome, -⟩
  · have hoptimized : line.program.optimized = some (place.within l.optimizeDir "json") := by
      rw [hrecord]
      rfl
    have hsaved := Tree.on_save_ok hsave
    rw [← hfiles] at hsaved
    obtain ⟨raw, time, hstat, ⟨rfl, -⟩ | ⟨hwrites, -⟩⟩ := hafter.stat_file_cases hsaved
    · exact ⟨_, result, time, hoptimized, hgood p tree s₃ result s₄ happly haccepts, hstat⟩
    · rw [hbefore.working] at hwrites
      obtain ⟨t, ht, rfl⟩ := hwrites place (Place.proper_of_ofName hplace) rfl
      exact ⟨_, t, time, hoptimized, ht, hstat⟩
  · cases houtcome

/-! ## Results that meet the configuration -/

/-- The stage alone keeps errors out of its outputs. -/
theorem yields_of_failOnError (herror : c.failOnError = true) :
    Yields tr c l (Tree.ClearOf (· = .error)) := by
  intro p t s r s' _ haccepts
  rw [Tree.clearOf_iff]
  intro severity hseverity
  rw [of_decide_eq_true hseverity]
  have hhas : r.has .error = false := by simpa [accepts, herror] using haccepts
  exact Tree.count_eq_zero.2 (Tree.has_eq_false.1 hhas)

theorem clearOf_of_applyTo {steps : List Step} {p : Program} {t r : Tree} {s s' : Site}
    (h : (applyTo (Train.ofConfig steps c l).optimization l.optimizedCacheDir p t).on s =
      (.ok r, s')) : r.ClearOf c.failsOn :=
  Tree.clearOf_iff.2 fun _ hfails => count_of_applyTo h _ (Gate.mem_ofConfig.2 hfails)

theorem yields_ofConfig (steps : List Step) (c : Config.Optimize) (l : Layout) :
    Yields (Train.ofConfig steps c l) c l (Tree.ClearOf c.failsOn) :=
  fun _ _ _ _ _ h _ => clearOf_of_applyTo h

theorem snapshots_ofConfig (steps : List Step) (c : Config.Optimize) (l : Layout) :
    (Train.ofConfig steps c l).snapshots = none ∨
      (Train.ofConfig steps c l).snapshots = some l.stepsDir := by
  rw [Train.ofConfig]
  cases c.trackSteps <;> simp

/-- What the gates of a configuration let pass, its stage accepts. -/
theorem accepts_of_clearOf {o : Optimization} {t : Tree} (h : t.ClearOf c.failsOn) :
    (Optimize.mk o c l).accepts t = true := by
  rw [accepts]
  cases herror : c.failOnError with
  | false => simp
  | true =>
    have hcount := Tree.clearOf_iff.1 h .error herror
    simp [Tree.has_eq_false.2 (Tree.count_eq_zero.1 hcount)]

theorem withheld_ofConfig {steps : List Step} {ps : List Program} {s s' : Site} {ledger : Ledger}
    (h : Settles ((ofConfig steps c l).pass ps) ((ofConfig steps c l).run ps) s ledger s') :
    ledger.report.withheld = 0 := by
  rw [ledger.counts_report.withheld, List.countP_eq_zero]
  intro line hline hwithheld
  have hfate : line.fate = .worked (.ok .withheld) := of_decide_eq_true hwithheld
  have htask := within_task_approved (snapshots_ofConfig steps c l) (yields_ofConfig steps c l)
    s.files.working
  obtain ⟨p, s₁, s₂, hdone, -⟩ :=
    (passes (ofConfig steps c l)).worked_of_settles htask h line hline hfate
  obtain ⟨place, tree, result, s₃, s₄, -, happly, hdeliver⟩ := on_task_ok hdone
  rcases on_deliver_ok hdeliver with ⟨houtcome, -⟩ | ⟨-, -, hrefuses, -⟩
  · cases houtcome
  · have haccepts : (ofConfig steps c l).accepts result = true :=
      accepts_of_clearOf (clearOf_of_applyTo happly)
    rw [hrefuses] at haccepts
    cases haccepts

/-- Recorded trees meet the configuration. With errors to fail, no recomputed output holds a tree
with an error, whatever the train. With the train of the configuration nothing has to be withheld,
and no recomputed output holds a diagnostic of a severity that is to fail, wherever the tree came
from. -/
theorem recomputed_outputs_meet_config (c : Config.Optimize) (l : Layout) (ps : List Program)
    (s s' : Site) (ledger : Ledger) :
    (∀ tr : Train, tr.snapshots = none ∨ tr.snapshots = some l.stepsDir → c.failOnError = true →
      Settles ((Optimize.mk tr.optimization c l).pass ps)
        ((Optimize.mk tr.optimization c l).run ps) s ledger s' →
      ∀ line ∈ ledger, line.fate = .worked (.ok .recomputed) →
        line.Holds s'.files (Tree.ClearOf (· = .error))) ∧
    ∀ steps : List Step,
      Settles ((ofConfig steps c l).pass ps) ((ofConfig steps c l).run ps) s ledger s' →
      ledger.report.withheld = 0 ∧
      ∀ line ∈ ledger, line.fate = .worked (.ok .recomputed) →
        line.Holds s'.files (Tree.ClearOf c.failsOn) := by
  constructor
  · intro tr hsnapshots herror h line hline hfate
    exact holds_of_recomputed hsnapshots (yields_of_failOnError herror) h hline hfate
  · intro steps h
    refine ⟨withheld_ofConfig h, fun line hline hfate => ?_⟩
    exact holds_of_recomputed (snapshots_ofConfig steps c l) (yields_ofConfig steps c l) h hline
      hfate

/-- A memo holds a tree with an error and a warning. A train without gates lets it pass, and the
stage withholds it; with gates for warnings alone, these stop it. The other program is
recomputed. -/
theorem recomputed_outputs_meet_config_found :
    let mark : Step := ⟨"mark", fun t => .ok (t.setAttribute "seen" "yes")⟩
    let l : Layout := ⟨⟨"out"⟩, ⟨"cache"⟩⟩
    let ungated : Train := ⟨[mark], [], some l.stepsDir⟩
    let strict : Config.Optimize := { failOnError := false, failOnWarning := true }
    let flaws : List Diagnostic := [⟨.error, "bad", none, none⟩, ⟨.warning, "odd", none, none⟩]
    let d : Digest := ⟨List.replicate 16 7, rfl⟩
    let a : Program := { name := "a", source := ⟨"a.eo"⟩, intermediate := ⟨"in/a.json"⟩ }
    let b : Program :=
      { name := "b", source := ⟨"b.eo"⟩, intermediate := ⟨"in/b.json"⟩, digest := some d }
    let a' := { a with optimized := some ⟨"out/03-optimize/a.json"⟩ }
    let stopped : WorkError := .structural ⟨"fail-on-warnings", "1 warning(s) found", flaws⟩
    let inputs : Entry := .directory [("a.json", .file (Tree.ofName "a").render.toUTF8 1),
      ("b.json", .file (Tree.ofName "b").render.toUTF8 1)] 1
    let found : Tree := { Tree.ofName "b" with errors := .ofList flaws }
    let memos : Entry := .directory [("optimized", .directory [(d.toHex,
      .directory [("b.tree", .file (Memo.entry found) 1)] 1)] 1)] 1
    let s : Site := { files := ⟨.directory [("in", inputs), ("cache", memos)] 1, [], 5⟩ }
    ∃ (first second : Ledger) (s₁ s₂ : Site),
      Settles ((Optimize.mk ungated.optimization {} l).pass [a, b])
        ((Optimize.mk ungated.optimization {} l).run [a, b]) s first s₁ ∧
      first = [⟨a', .worked (.ok .recomputed)⟩, ⟨b, .worked (.ok .withheld)⟩] ∧
      Line.Holds s₁.files (Tree.ClearOf (· = .error)) ⟨a', .worked (.ok .recomputed)⟩ ∧
      Settles ((ofConfig [mark] strict l).pass [a, b]) ((ofConfig [mark] strict l).run [a, b]) s
        second s₂ ∧
      second = [⟨a', .worked (.ok .recomputed)⟩, ⟨b, .worked (.error stopped)⟩] ∧
      second.report.withheld = 0 ∧
      Line.Holds s₂.files (Tree.ClearOf strict.failsOn) ⟨a', .worked (.ok .recomputed)⟩ := by
  intro mark l ungated strict flaws d a b a' stopped inputs found memos s
  have hall : (((Optimize.mk ungated.optimization {} l).pass [a, b]).on s).1 =
        .ok [⟨a', .worked (.ok .recomputed)⟩, ⟨b, .worked (.ok .withheld)⟩] ∧
      (((ofConfig [mark] strict l).pass [a, b]).on s).1 =
        .ok [⟨a', .worked (.ok .recomputed)⟩, ⟨b, .worked (.error stopped)⟩] := by
    decide +kernel
  obtain ⟨s₁, -, hfirst⟩ := settles_of_on_pass (Job.on_of_fst hall.1)
  obtain ⟨s₂, -, hsecond⟩ := settles_of_on_pass (Job.on_of_fst hall.2)
  have hopen := (recomputed_outputs_meet_config {} l [a, b] s s₁ _).1 ungated (.inr rfl) rfl hfirst
  have hstrict := (recomputed_outputs_meet_config strict l [a, b] s s₂ _).2 [mark] hsecond
  exact ⟨_, _, s₁, s₂, hfirst, rfl, hopen _ List.mem_cons_self rfl, hsecond, rfl, hstrict.1,
    hstrict.2 _ List.mem_cons_self rfl⟩

end Optimize

end Stage

end Trainyard
