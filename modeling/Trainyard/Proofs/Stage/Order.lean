import Trainyard.Proofs.Stage.Run

/-!
# The optimize stage in any order

The snapshots of the stage have a directory of their own, so programs of different places
stay apart. Neither their order nor the other programs of a batch matter.
-/

set_option autoImplicit false

namespace Trainyard.Stage.Optimize

def workshop (steps : List Step) (c : Config.Optimize) (l : Layout) : Workshop where
  scheme := scheme (Train.ofConfig steps c l).stationNames
  train := Train.ofConfig steps c l
  layout := l
  input p := some p.intermediate
  unsupplied p := .internal ⟨p.name⟩
  finish := (ofConfig steps c l).deliver
  standing := (ofConfig steps c l).standing
  watched p := p.intermediate :: p.optimized.toList

variable {steps : List Step} {c : Config.Optimize} {l : Layout} {ps : List Program} {s : Site}

theorem prepare_workshop (ps : List Program) :
    (workshop steps c l).prepare ps = (ofConfig steps c l).prepare ps := rfl

theorem task_workshop : (workshop steps c l).task = (ofConfig steps c l).task := rfl

theorem standing_congr (stage : Optimize) {fs fs' : FileSystem} {p : Program}
    (h : ∀ path ∈ p.intermediate :: p.optimized.toList, fs'.modified? path = fs.modified? path) :
    stage.standing fs' p = stage.standing fs p := by
  have hneeds : p.needsOptimization fs' = p.needsOptimization fs := by
    rw [Program.needsOptimization, Program.needsOptimization]
    cases hoptimized : p.optimized with
    | none => rfl
    | some output => simp only [h p.intermediate (by simp), h output (by simp [hoptimized])]
  rw [standing, standing, hneeds]

theorem steady_deliver {p : Program} {place : Place} {r : Tree} (hplace : p.place = .ok place)
    (hready : ((workshop steps c l).footprint s.files.working p).Ready s.files) :
    Job.Steady ((workshop steps c l).footprint s.files.working p)
      ((ofConfig steps c l).deliver p place r) s := by
  obtain ⟨front, stem, houtputs⟩ :=
    (workshop steps c l).covers_outputs (tidy_scheme _) hplace s.files.working
  obtain ⟨hpath, hcovers⟩ := houtputs "json" List.mem_cons_self
  rw [deliver]
  split
  · refine Job.steady_bind hready (Job.steady_adapt _ ?_) fun _ s₁ _ _ hready₁ => ?_
    · have hsave := r.steady_save hready hcovers
      rw [← hpath] at hsave
      exact hsave
    · exact Job.steady_bind hready₁ (Job.steady_tell _) fun _ _ _ _ _ => Job.steady_pure _
  · exact Job.steady_bind hready (Job.steady_tell _) fun _ _ _ _ _ => Job.steady_pure _

theorem runs_workshop (steps : List Step) (c : Config.Optimize) (l : Layout) :
    (workshop steps c l).Runs (ofConfig steps c l).pass (ofConfig steps c l).run where
  tidy := tidy_scheme _
  stations := rfl
  snapshots dir hdir := by
    have htrack : (if c.trackSteps then some l.stepsDir else none) = some dir := hdir
    split at htrack
    next => exact (Option.some.inj htrack).symm
    next => simp at htrack
  stands _ _ _ h := standing_congr _ h
  finishes _ _ _ _ hplace hready := steady_deliver hplace hready
  unprepared ps s e s' h := by
    rw [prepare_workshop] at h
    exact on_run_of_unprepared h
  prepared ps s u s' h := by
    rw [prepare_workshop] at h
    obtain ⟨s₁, hfiles, hpass⟩ := on_pass_of_prepare h
    exact ⟨s₁, hfiles, by rw [hpass, hfiles, task_workshop]; rfl⟩
  settles ps s ledger s' h := settles_of_on_pass h

/-- Workers who share the programs and take turns, however they do it, come to the ledger of the run
and leave the same files. -/
theorem run_shared (h : (workshop steps c l).Batch s.files ps) {s₀ s' : Site} {ledger : Ledger}
    {u : Unit} (hprepare : ((ofConfig steps c l).prepare ps).on s = (.ok u, s₀))
    (hshared : (Plan.make ((ofConfig steps c l).standing s₀.files) ps).Shared
      (ofConfig steps c l).task s₀ ledger s') :
    ∃ s₁, Settles ((ofConfig steps c l).pass ps) ((ofConfig steps c l).run ps) s ledger s₁ ∧
      FileSystem.Same s₁.files s'.files :=
  h.run_shared (runs_workshop steps c l) hprepare hshared

/-- Neither the order of the programs nor the other programs among them matter. In another order,
the directories can be made as well or as little, each program comes to the same record and fate,
and all files are the same. Where a run succeeds, a run on some of its programs brings each of
them to the same record and fate and leaves the same in its files. -/
theorem run_independent_of_order_and_company (h : (workshop steps c l).Batch s.files ps) :
    (∀ qs : List Program, qs.Perm ps → ∃ s₁ s₂, FileSystem.Same s₁.files s₂.files ∧
      ((∃ e, ((ofConfig steps c l).run ps).on s = (.error e, s₁) ∧
          ((ofConfig steps c l).run qs).on s = (.error e, s₂)) ∨
        ∃ line : Program → Line,
          Settles ((ofConfig steps c l).pass ps) ((ofConfig steps c l).run ps) s (ps.map line) s₁ ∧
          Settles ((ofConfig steps c l).pass qs) ((ofConfig steps c l).run qs) s
            (qs.map line) s₂)) ∧
    ∀ qs : List Program, qs.Sublist ps →
      (qs.any (·.digest.isSome) = ps.any (·.digest.isSome) ∨ (workshop steps c l).Unaffected s.files qs) →
      ∀ answer s₁, ((ofConfig steps c l).run ps).on s = (.ok answer, s₁) →
      ∃ (line : Program → Line) (s₂ : Site),
        Settles ((ofConfig steps c l).pass ps) ((ofConfig steps c l).run ps) s (ps.map line) s₁ ∧
        Settles ((ofConfig steps c l).pass qs) ((ofConfig steps c l).run qs) s (qs.map line) s₂ ∧
        ∀ q ∈ qs, ∀ k, ((workshop steps c l).footprint s.files.working q).own k →
          s₂.files.item? k = s₁.files.item? k :=
  ⟨fun _ hperm => h.run_perm (runs_workshop steps c l) hperm,
    fun _ hsub hunaffected _ _ hrun => h.run_sublist (runs_workshop steps c l) hsub hunaffected hrun⟩

/-- One program has a digest, one has none, and the tree of one is missing. They are settled the
same in both orders, and the second one alone as well. -/
theorem run_independent_of_order_and_company_three :
    let mark : Step := ⟨"mark", fun t => .ok (t.addError ⟨.warning, "odd", none, none⟩)⟩
    let stage := ofConfig [mark] { trackSteps := true } ⟨⟨"out"⟩, ⟨"cache"⟩⟩
    let d : Digest := ⟨List.replicate 16 7, rfl⟩
    let a : Program :=
      { name := "a", source := ⟨"a.eo"⟩, intermediate := ⟨"in/a.json"⟩, digest := some d }
    let b : Program := { name := "x.b", source := ⟨"b.eo"⟩, intermediate := ⟨"in/b.json"⟩ }
    let gone : Program := { name := "x", source := ⟨"x.eo"⟩, intermediate := ⟨"in/x.json"⟩ }
    let a' := { a with optimized := some ⟨"out/03-optimize/a.json"⟩ }
    let b' := { b with optimized := some ⟨"out/03-optimize/x/b.json"⟩ }
    let inputs : Entry := .directory [("a.json", .file (Tree.ofName "a").render.toUTF8 1),
      ("b.json", .file (Tree.ofName "x.b").render.toUTF8 1)] 1
    let s : Site := { files := ⟨.directory [("work", .directory [("in", inputs)] 1)] 1, ["work"], 5⟩ }
    let failure : Failure := ⟨"x", .tree (.io ⟨"in/x.json"⟩ .notFound)⟩
    ∃ s₁ s₂ s₃, FileSystem.Same s₁.files s₂.files ∧
      (stage.run [a, b, gone]).on s =
        (.ok ({ total := 3, recomputed := 2, failures := [failure] }, [a', b', gone]), s₁) ∧
      (stage.run [gone, b, a]).on s =
        (.ok ({ total := 3, recomputed := 2, failures := [failure] }, [gone, b', a']), s₂) ∧
      (stage.run [b]).on s = (.ok ({ total := 1, recomputed := 1 }, [b']), s₃) ∧
      s₃.files.item? ["work", "out", "02-steps", "x", "b", "001-mark.json"] =
        s₁.files.item? ["work", "out", "02-steps", "x", "b", "001-mark.json"] := by
  intro mark stage d a b gone a' b' inputs s failure
  let shop := workshop [mark] { trackSteps := true } ⟨⟨"out"⟩, ⟨"cache"⟩⟩
  have hbatch : shop.Batch s.files [a, b, gone] := by
    refine ⟨?_, by decide +kernel, fun heq => absurd heq (outputs_ne_snapshots _),
      by decide +kernel, by decide +kernel, ?_⟩
    · intro step hstep t t' happly
      rw [List.mem_singleton.1 hstep] at happly
      cases happly
      rfl
    · intro _
      rw [List.forall_mem_cons, List.forall_mem_cons, List.forall_mem_singleton]
      refine ⟨fun e he place hplace => ?_, by simp [b], by simp [gone]⟩
      have ha : a.place = .ok ⟨["a"]⟩ := by decide +kernel
      rw [← Option.some.inj he, ← Except.ok.inj (ha.symm.trans hplace)]
      exact Memo.sound_of_missing (by decide +kernel)
  have hpass : ((stage.pass [a, b, gone]).on s).1 = .ok [⟨a', .worked (.ok .recomputed)⟩,
      ⟨b', .worked (.ok .recomputed)⟩, ⟨gone, .worked (.error failure.cause)⟩] := by decide +kernel
  obtain ⟨hperm, hsub⟩ := run_independent_of_order_and_company hbatch
  obtain ⟨s₁, s₂, hsame, ⟨e, hfails, -⟩ | ⟨line, h₁, h₂⟩⟩ := hperm [gone, b, a] (by decide)
  · obtain ⟨s', -, hrun⟩ := stage.on_run [a, b, gone] s
    rw [hpass, hfails] at hrun
    cases hrun
  have hunaffected : shop.Unaffected s.files [b] :=
    ⟨by decide +kernel, by decide +kernel, by decide +kernel⟩
  obtain ⟨line', s₃, h₁', h₃, hown⟩ := hsub [b] (by decide) (.inr hunaffected) _ s₁ h₁.run
  obtain ⟨ha, hb, hgone⟩ : line a = _ ∧ line b = _ ∧ line gone = _ := by
    simpa using h₁.pass.symm.trans hpass
  obtain ⟨-, hb', -⟩ : line' a = _ ∧ line' b = _ ∧ line' gone = _ := by
    simpa using h₁'.pass.symm.trans hpass
  refine ⟨s₁, s₂, s₃, hsame, ?_, ?_, ?_, hown b List.mem_cons_self _ ?_⟩
  · rw [h₁.run]
    simp only [List.map_cons, List.map_nil, ha, hb, hgone]
    rfl
  · rw [h₂.run]
    simp only [List.map_cons, List.map_nil, ha, hb, hgone]
    rfl
  · rw [h₃.run]
    simp only [List.map_cons, List.map_nil, hb']
    rfl
  · refine ⟨⟨"out"⟩, ["02-steps", "x", "b"], "001-mark.json", ?_, by decide +kernel⟩
    exact ⟨⟨["x", "b"]⟩, ["x"], "b", by decide +kernel, rfl,
      .inr (.inl ⟨0, "mark", rfl, rfl, rfl, by decide +kernel⟩)⟩

/-- Programs can get into each other's way. Where the directory for memo entries is the recorded
output of a program, the program is skipped as soon as another one has a digest. The path of a
parsed tree may make a detour through a directory that another program makes. And a memo entry
with a tree of another name leaves snapshots where those of that name go. -/
theorem run_dependent_on_order_or_company :
    let l : Layout := ⟨⟨"out"⟩, ⟨"cache"⟩⟩
    let d : Digest := ⟨List.replicate 16 7, rfl⟩
    let a : Program := { name := "a", source := ⟨"a.eo"⟩, intermediate := ⟨"in/a.json"⟩ }
    let b : Program := { name := "x.b", source := ⟨"b.eo"⟩, intermediate := ⟨"in/b.json"⟩ }
    let inputs : Entry := .directory [("a.json", .file (Tree.ofName "a").render.toUTF8 1),
      ("b.json", .file (Tree.ofName "x.b").render.toUTF8 1)] 1
    let site (more : List (String × Entry)) : Site :=
      { files := ⟨.directory [("work", .directory (("in", inputs) :: more) 1)] 1, ["work"], 5⟩ }
    let fates (c : Config.Optimize) (more : List (String × Entry)) (ps : List Program) :=
      (((ofConfig [] c l).pass ps).on (site more)).1.map fun ledger => ledger.map (·.fate)
    let kept := { a with optimized := some ⟨"cache"⟩ }
    let detour := { a with intermediate := ⟨"out/03-optimize/x/../../../in/a.json"⟩ }
    let other := (Tree.ofName "x.b").addError ⟨.warning, "odd", none, none⟩
    let entries : Entry :=
      .directory [(d.toHex, .directory [("a.tree", .file (Memo.entry other) 1)] 1)] 1
    let snapshot (ps : List Program) :=
      (((ofConfig [] { trackSteps := true, failOnError := true } l).pass ps).on
        (site [("cache", .directory [("optimized", entries)] 1)])).2.files.item?
          ["work", "out", "02-steps", "x", "b", "001-fail-on-errors.json"]
    (fates {} [] [kept, { b with digest := some d }] = .ok [.skipped, .worked (.ok .recomputed)] ∧
      fates {} [] [kept] = .ok [.worked (.ok .recomputed)]) ∧
    (fates {} [] [detour, b] = .ok [.worked (.error (.tree (.io detour.intermediate .notFound))),
        .worked (.ok .recomputed)] ∧
      fates {} [] [b, detour] = .ok [.worked (.ok .recomputed), .worked (.ok .recomputed)]) ∧
    (snapshot [{ a with digest := some d }, b] = some (.file (Tree.ofName "x.b").render.toUTF8 5) ∧
      snapshot [b, { a with digest := some d }] = some (.file other.render.toUTF8 5)) := by
  decide +kernel

end Trainyard.Stage.Optimize
