import Trainyard.Proofs.Stage.Rerun

/-!
# What the records say after binarizing

A program is skipped for the file that is where its code would go, and recorded for the work done
on it. So after a run without failures the code of every program is there, but only the records of
recomputed programs are sure to name it. A skipped program keeps the record it came with, also one
that names no code.
-/

set_option autoImplicit false

namespace Trainyard.Stage.Binarize

inductive Leaves (stage : Binarize) (fs : FileSystem) (p : Program) (place : Place) : Line → Prop
  | recomputed {raw : ByteArray} {time : Nat}
      (hfile : fs.stat (stage.codeOutput place) = .ok (.file raw time)) :
      Leaves stage fs p place ⟨stage.record p place, .worked (.ok .recomputed)⟩
  | skipped {time : Nat} (hpresent : fs.modified? (stage.codeOutput place) = some time) :
      Leaves stage fs p place ⟨p, .skipped⟩

variable {stage : Binarize} {fs : FileSystem} {p : Program} {place : Place} {line : Line}

theorem Leaves.present (h : stage.Leaves fs p place line) :
    ∃ time, fs.modified? (stage.codeOutput place) = some time := by
  cases h with
  | recomputed hfile => exact ⟨_, FileSystem.modified?_eq_some.2 ⟨_, hfile, rfl⟩⟩
  | skipped hpresent => exact ⟨_, hpresent⟩

theorem Leaves.binarized_iff (h : stage.Leaves fs p place line) :
    line.program.binarized = some (stage.codeOutput place) ↔
      line.fate = .worked (.ok .recomputed) ∨ p.binarized = some (stage.codeOutput place) := by
  cases h with
  | recomputed hfile => exact ⟨fun _ => .inl rfl, fun _ => rfl⟩
  | skipped hpresent => simp

theorem within_task_any (stage : Binarize) (working : Key) (p : Program) :
    Job.Within working (fun _ _ => True) (stage.task p) :=
  fun s _ => stage.timed.task p s

theorem leaves_of_fresh {s₁ : Site} {fs₀ fs' : FileSystem} {writes : FileSystem.Writes}
    (hfresh : stage.standing fs₀ p = .fresh) (hbefore : fs₀.Evolves writes s₁.files)
    (hafter : (filesOf stage.task s₁ p .fresh).Evolves writes fs') :
    ∃ place, p.place = .ok place ∧ stage.Leaves fs' p place ⟨p, .skipped⟩ := by
  obtain ⟨-, o, ho, out, hmodified, -⟩ := (stage.standing_eq_fresh fs₀ p).1 hfresh
  obtain ⟨place, hplace, rfl⟩ := Option.map_eq_some_iff.1 ho
  rw [filesOf, if_neg (by decide)] at hafter
  obtain ⟨time, htime, -⟩ := (hbefore.trans hafter).modified? hmodified
  refine ⟨place, ?_, .skipped htime⟩
  cases hp : p.place with
  | error e =>
    rw [hp] at hplace
    cases hplace
  | ok found =>
    rw [hp] at hplace
    cases hplace
    rfl

theorem leaves_of_done {s₁ : Site} {fs' : FileSystem} {writes : FileSystem.Writes}
    {outcome : Outcome} {p' : Program}
    (hdone : ((stage.task p).on s₁).1 = .ok (outcome, p'))
    (hafter : (filesOf stage.task s₁ p .due).Evolves writes fs') :
    ∃ place, p.place = .ok place ∧ stage.Leaves fs' p place ⟨p', .worked (.ok outcome)⟩ := by
  obtain ⟨rfl, place, code, s₂, hplace, rfl, hwrite⟩ := on_task_ok (Job.on_of_fst hdone)
  rw [filesOf, if_pos rfl] at hafter
  obtain ⟨raw, time, hfile, -⟩ := hafter.stat_file_cases (FileSystem.stat_write hwrite)
  exact ⟨place, hplace, .recomputed hfile⟩

/-- After a run without failures, the code of every program in scope is there. Recomputed programs
have a record of it, and skipped ones have the record they had. -/
theorem records_after_run (stage : Binarize) (ps : List Program) (s s' : Site) (ledger : Ledger)
    (henabled : stage.config.enabled = true)
    (h : Settles (stage.pass ps) (stage.run ps) s ledger s')
    (hfailures : ledger.report.failures = []) :
    List.Forall₂ (fun p line =>
      (stage.inScope p = false → line = ⟨p, .outOfScope⟩) ∧
      (stage.inScope p = true → ∃ place, p.place = .ok place ∧
        stage.Leaves s'.files p place line ∧
        (∃ time, s'.files.modified? (stage.codeOutput place) = some time) ∧
        (line.program.binarized = some (stage.codeOutput place) ↔
          line.fate = .worked (.ok .recomputed) ∨
          p.binarized = some (stage.codeOutput place)))) ps ledger := by
  rw [ledger.counts_report.failures, List.filterMap_eq_nil_iff] at hfailures
  obtain ⟨s₀, hlines⟩ := (stage.passes henabled).lines_of_settles
    (stage.within_task_any s.files.working) h
  have hlines := (List.forall₂_and_left ledger ps).2 ⟨hfailures, hlines.flip⟩
  refine hlines.flip.imp fun p line hline => ?_
  obtain ⟨hfailure, s₁, -, hbefore, rfl, hafter⟩ := hline
  have hscope := stage.keeps.scope s₀.files p
  cases hstanding : stage.standing s₀.files p with
  | outOfScope =>
    rw [hscope.1 hstanding]
    exact ⟨fun _ => rfl, fun hin => absurd hin (by decide)⟩
  | fresh =>
    rw [hstanding] at hscope hafter
    obtain ⟨place, hplace, hleaves⟩ := leaves_of_fresh hstanding hbefore hafter
    refine ⟨fun hout => absurd (hscope.2 hout) (by decide), fun _ => ?_⟩
    exact ⟨place, hplace, hleaves, hleaves.present, hleaves.binarized_iff⟩
  | due =>
    rw [hstanding] at hscope hafter hfailure
    refine ⟨fun hout => absurd (hscope.2 hout) (by decide), fun _ => ?_⟩
    cases hdone : ((stage.task p).on s₁).1 with
    | error e =>
      rw [hdone] at hfailure
      cases hfailure
    | ok done =>
      obtain ⟨place, hplace, hleaves⟩ := leaves_of_done hdone hafter
      exact ⟨place, hplace, hleaves, hleaves.present, hleaves.binarized_iff⟩

/-- The code of one program is there and its record does not say so; another one has neither, and
the third is not in scope. -/
theorem records_after_run_mixed :
    let code : Step := ⟨"code", fun t => .ok (t.setAttribute Tree.codeKey "struct A;")⟩
    let stage : Binarize := ⟨⟨[code], [], none⟩, {}, ⟨⟨"out"⟩, ⟨"cache"⟩⟩⟩
    let a : Program :=
      { name := "a", source := ⟨"a.eo"⟩, intermediate := ⟨"a.json"⟩, optimized := some ⟨"a.json"⟩ }
    let b : Program :=
      { name := "x.b", source := ⟨"b.eo"⟩, intermediate := ⟨"b"⟩, optimized := some ⟨"b.json"⟩ }
    let b' := { b with binarized := some ⟨"out/binarize/x/b.rs"⟩ }
    let c : Program := { name := "c", source := ⟨"c.eo"⟩, intermediate := ⟨"c.json"⟩ }
    let outputs : Entry := .directory [("binarize",
      .directory [("a.rs", .file "struct A;".toUTF8 3)] 3)] 3
    let s : Site := { files := ⟨.directory [("a.json", .file (Tree.ofName "a").render.toUTF8 1),
      ("b.json", .file (Tree.ofName "x.b").render.toUTF8 1), ("out", outputs)] 1, [], 5⟩ }
    ∃ (ledger : Ledger) (s' : Site),
      Settles (stage.pass [a, b, c]) (stage.run [a, b, c]) s ledger s' ∧
      ledger = [⟨a, .skipped⟩, ⟨b', .worked (.ok .recomputed)⟩, ⟨c, .outOfScope⟩] ∧
      ledger.report.failures = [] ∧
      (∃ place, a.place = .ok place ∧ stage.Leaves s'.files a place ⟨a, .skipped⟩) ∧
      ∃ place, b.place = .ok place ∧
        stage.Leaves s'.files b place ⟨b', .worked (.ok .recomputed)⟩ ∧
        b'.binarized = some (stage.codeOutput place) := by
  intro code stage a b b' c outputs s
  have hpass : ((stage.pass [a, b, c]).on s).1 =
      .ok [⟨a, .skipped⟩, ⟨b', .worked (.ok .recomputed)⟩, ⟨c, .outOfScope⟩] := by decide +kernel
  obtain ⟨s', -, hsettles⟩ := settles_of_on_pass rfl (Job.on_of_fst hpass)
  have hrecords := records_after_run stage [a, b, c] s s' _ rfl hsettles rfl
  rw [List.forall₂_cons, List.forall₂_cons] at hrecords
  obtain ⟨⟨-, ha⟩, ⟨-, hb⟩, -⟩ := hrecords
  obtain ⟨place, hplace, hskipped, -⟩ := ha rfl
  obtain ⟨place', hplace', hrecomputed, -, hrecord⟩ := hb rfl
  exact ⟨_, s', hsettles, rfl, rfl, ⟨place, hplace, hskipped⟩, place', hplace', hrecomputed,
    hrecord.2 (.inl rfl)⟩

/-- A program that was binarized is listed anew. Its code is fresh, so it is skipped without a
failure, and its record does not name the code. -/
theorem skipped_program_without_record :
    let code : Step := ⟨"code", fun t => .ok (t.setAttribute Tree.codeKey "struct A;")⟩
    let stage : Binarize := ⟨⟨[code], [], none⟩, {}, ⟨⟨"out"⟩, ⟨"cache"⟩⟩⟩
    let a : Program :=
      { name := "a", source := ⟨"a.eo"⟩, intermediate := ⟨"a.json"⟩, optimized := some ⟨"a.json"⟩ }
    let a' := { a with binarized := some ⟨"out/binarize/a.rs"⟩ }
    let s : Site := { files := ⟨.directory [("a.json", .file (Tree.ofName "a").render.toUTF8 1)] 1,
      [], 5⟩ }
    let s₁ := ((stage.run [a]).on s).2.atTime 9
    let s₂ := ((stage.run [a]).on s₁).2
    ((stage.run [a]).on s).1 = .ok ({ total := 1, recomputed := 1 }, [a']) ∧
      ((stage.run [a]).on s₁).1 = .ok ({ total := 1, skipped := 1 }, [a]) ∧
      stage.inScope a = true ∧ a.binarized = none ∧
      s₂.files.readText ⟨"out/binarize/a.rs"⟩ = .ok "struct A;" := by
  decide +kernel

end Trainyard.Stage.Binarize
