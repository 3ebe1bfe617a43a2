import Trainyard.Proofs.Stage.Run

/-!
# The binarize stage in any order

The stage puts snapshots among its outputs. A program whose place continues that of
another one by the stem of a snapshot shares a file with it, and which of the two is left
there depends on the order. Without such programs the order does not matter.
-/

set_option autoImplicit false

namespace Trainyard.Stage.Binarize

def code? (stage : Binarize) (p : Program) : Option Path := p.place.toOption.map stage.codeOutput

def workshop (stage : Binarize) : Workshop where
  scheme := scheme stage.train.stationNames
  train := stage.train.withSnapshots stage.dir
  layout := stage.layout
  input := Program.optimized
  unsupplied p := .internal ⟨s!"{p.name} was scheduled without an optimized tree"⟩
  finish := stage.deliver
  standing := stage.standing
  watched p := p.source :: p.optimized.toList ++ (stage.code? p).toList

variable {stage : Binarize} {ps qs : List Program} {s s' : Site} {p : Program}

theorem prepare_workshop (ps : List Program) : stage.workshop.prepare ps = stage.prepare ps := rfl

theorem task_workshop : stage.workshop.task = stage.task := rfl

theorem standing_congr (stage : Binarize) {fs fs' : FileSystem}
    (h : ∀ path ∈ p.source :: p.optimized.toList ++ (stage.code? p).toList,
      fs'.modified? path = fs.modified? path) : stage.standing fs' p = stage.standing fs p := by
  have hnewer (path : Path) (out : Nat) (hpath : path ∈ p.source :: p.optimized.toList) :
      newer fs' out path = newer fs out path := by
    rw [newer, newer, h path (List.mem_append_left _ hpath)]
  rw [standing, standing]
  cases hplace : p.place with
  | error e => rfl
  | ok place =>
    have hcode := h (stage.codeOutput place) (by simp [code?, hplace, Except.toOption])
    have hneeds : needsCode fs' p (stage.codeOutput place) =
        needsCode fs p (stage.codeOutput place) := by
      rw [needsCode, needsCode, hcode]
      cases hoptimized : p.optimized with
      | none => simp only [Option.any_none, hnewer p.source _ (by simp)]
      | some input =>
        simp only [Option.any_some, hnewer p.source _ (by simp), hnewer input _ (by simp [hoptimized])]
    simp only [hneeds]

theorem steady_deliver {place : Place} {r : Tree} (hplace : p.place = .ok place)
    (hready : (stage.workshop.footprint s.files.working p).Ready s.files) :
    Job.Steady (stage.workshop.footprint s.files.working p) (stage.deliver p place r) s := by
  obtain ⟨front, stem, houtputs⟩ := stage.workshop.covers_outputs (tidy_scheme _) hplace s.files.working
  obtain ⟨htree, htreeCovers⟩ := houtputs "json" (by simp [workshop, scheme])
  obtain ⟨hcode, hcodeCovers⟩ := houtputs "rs" (by simp [workshop, scheme])
  change stage.treeOutput place = _ at htree
  change stage.codeOutput place = _ at hcode
  generalize stage.workshop.footprint s.files.working p = F at *
  have hsave := r.steady_save hready htreeCovers
  rw [← htree] at hsave
  refine Job.steady_bind hready (Job.steady_adapt _ hsave) fun _ s₁ hsaved hworking hready₁ => ?_
  have henters := Tree.enters_of_on_save htreeCovers (htree ▸ Job.on_adapt_ok hsaved)
  refine Job.steady_bind hready₁ (Job.steady_ofExcept _ _) fun code s₂ hcoded _ hready₂ => ?_
  obtain ⟨-, rfl⟩ := Job.on_ofExcept_ok hcoded
  rw [← hworking] at hcodeCovers
  have hwrite := Job.steady_write (WorkError.io (stage.codeOutput place)) code.toUTF8
    hcodeCovers henters
  rw [← hcode] at hwrite
  refine Job.steady_bind hready₂ hwrite fun _ _ _ _ hready₃ => ?_
  exact Job.steady_bind hready₃ (Job.steady_tell _) fun _ _ _ _ _ => Job.steady_pure _

theorem runs_workshop (henabled : stage.config.enabled = true) :
    stage.workshop.Runs stage.pass stage.run where
  tidy := tidy_scheme _
  stations := rfl
  snapshots dir hdir := (Option.some.inj hdir).symm
  stands _ _ _ h := standing_congr stage h
  finishes _ _ _ _ hplace hready := steady_deliver hplace hready
  unprepared ps s e s' h := by
    rw [prepare_workshop] at h
    exact on_run_of_unprepared henabled h
  prepared ps s u s' h := by
    rw [prepare_workshop] at h
    obtain ⟨s₁, hfiles, hpass⟩ := on_pass_of_prepare h
    exact ⟨s₁, hfiles, by rw [hpass, hfiles, task_workshop]; rfl⟩
  settles ps s ledger s' h := settles_of_on_pass henabled h

/-- Workers who share the programs and take turns, however they do it, come to the ledger of the run
and leave the same files. -/
theorem run_shared (henabled : stage.config.enabled = true) (h : stage.workshop.Batch s.files ps)
    {s₀ : Site} {ledger : Ledger} {u : Unit} (hprepare : (stage.prepare ps).on s = (.ok u, s₀))
    (hshared : (Plan.make (stage.standing s₀.files) ps).Shared stage.task s₀ ledger s') :
    ∃ s₁, Settles (stage.pass ps) (stage.run ps) s ledger s₁ ∧
      FileSystem.Same s₁.files s'.files :=
  h.run_shared (runs_workshop henabled) hprepare hshared

/-- Programs of different places share a file exactly if the place of one continues that of the
other by the stem of a snapshot. If there are no such programs, the order does not matter: the
directories can be made as well or as little, each program comes to the same record and fate, and
all files are the same. -/
theorem run_independent_of_order (henabled : stage.config.enabled = true)
    (h : stage.workshop.Batch s.files ps) :
    (∀ p q : Program, p.Elsewhere q →
      ((∃ k, (stage.workshop.footprint s.files.working p).own k ∧
          (stage.workshop.footprint s.files.working q).own k) ↔
        stage.workshop.scheme.Clash p q ∨ stage.workshop.scheme.Clash q p)) ∧
    ∀ qs : List Program, qs.Perm ps → ∃ s₁ s₂, FileSystem.Same s₁.files s₂.files ∧
      ((∃ e, (stage.run ps).on s = (.error e, s₁) ∧ (stage.run qs).on s = (.error e, s₂)) ∨
        ∃ line : Program → Line,
          Settles (stage.pass ps) (stage.run ps) s (ps.map line) s₁ ∧
          Settles (stage.pass qs) (stage.run qs) s (qs.map line) s₂) :=
  ⟨fun _ _ hplaces => Scheme.own_shared_iff (tidy_scheme _) List.mem_cons_self rfl hplaces,
    fun _ hperm => h.run_perm (runs_workshop henabled) hperm⟩

/-- One program lies below the place of another one, next to its snapshot, and has a digest. The
tree of a third one has no code. They are settled the same in both orders. -/
theorem run_independent_of_order_three :
    let toRust : Step := ⟨"to-rust", fun t =>
      if t.name? = some "z" then .ok t else .ok (t.setAttribute Tree.codeKey "pub struct S;")⟩
    let stage : Binarize := ⟨{ steps := [toRust] }, { enabled := true }, ⟨⟨"out"⟩, ⟨"cache"⟩⟩⟩
    let d : Digest := ⟨List.replicate 16 7, rfl⟩
    let program (name input : String) : Program :=
      { name := name, source := ⟨"s.eo"⟩, intermediate := ⟨"s.json"⟩, optimized := some ⟨input⟩ }
    let a := program "app" "in/a.json"
    let b := { program "app.to-rust" "in/b.json" with digest := some d }
    let z := program "z" "in/z.json"
    let a' := { a with binarized := some ⟨"out/binarize/app.rs"⟩ }
    let b' := { b with binarized := some ⟨"out/binarize/app/to-rust.rs"⟩ }
    let input (name : String) : Entry := .file (Tree.ofName name).render.toUTF8 1
    let inputs : Entry :=
      .directory [("a.json", input "app"), ("b.json", input "app.to-rust"), ("z.json", input "z")] 1
    let s : Site := { files := ⟨.directory [("work", .directory [("in", inputs)] 1)] 1, ["work"], 5⟩ }
    let failure : Failure := ⟨"z", .tree (.missingAttribute Tree.codeKey)⟩
    ∃ s₁ s₂, FileSystem.Same s₁.files s₂.files ∧
      (stage.run [a, b, z]).on s =
        (.ok ({ total := 3, recomputed := 2, failures := [failure] }, [a', b', z]), s₁) ∧
      (stage.run [z, b, a]).on s =
        (.ok ({ total := 3, recomputed := 2, failures := [failure] }, [z, b', a']), s₂) := by
  intro toRust stage d program a b z a' b' input inputs s failure
  have hkeeps : toRust.KeepsName := by
    intro t t' happly
    simp only [toRust] at happly
    split at happly
    next => exact congrArg Tree.name? (Except.ok.inj happly).symm
    next => exact Except.ok.inj happly ▸ Tree.name?_setAttribute (by decide) t _
  have hbatch : stage.workshop.Batch s.files [a, b, z] := by
    refine ⟨?_, by decide +kernel, fun _ => by decide +kernel, by decide +kernel, by decide +kernel, ?_⟩
    · intro step hstep
      rw [List.mem_singleton.1 hstep]
      exact hkeeps
    · intro _
      rw [List.forall_mem_cons, List.forall_mem_cons, List.forall_mem_singleton]
      refine ⟨by simp [a, program], fun e he place hplace => ?_, by simp [z, program]⟩
      have hb : b.place = .ok ⟨["app", "to-rust"]⟩ := by decide +kernel
      rw [← Option.some.inj he, ← Except.ok.inj (hb.symm.trans hplace)]
      exact Memo.sound_of_missing (by decide +kernel)
  have hpass : ((stage.pass [a, b, z]).on s).1 = .ok [⟨a', .worked (.ok .recomputed)⟩,
      ⟨b', .worked (.ok .recomputed)⟩, ⟨z, .worked (.error failure.cause)⟩] := by decide +kernel
  have henabled : stage.config.enabled = true := rfl
  obtain ⟨-, hperm⟩ := run_independent_of_order henabled hbatch
  obtain ⟨s₁, s₂, hsame, ⟨e, hfails, -⟩ | ⟨line, h₁, h₂⟩⟩ := hperm [z, b, a] (by decide)
  · obtain ⟨s', -, hrun⟩ := on_run henabled [a, b, z] s
    rw [hpass, hfails] at hrun
    cases hrun
  obtain ⟨ha, hb, hz⟩ : line a = _ ∧ line b = _ ∧ line z = _ := by
    simpa using h₁.pass.symm.trans hpass
  refine ⟨s₁, s₂, hsame, ?_, ?_⟩
  · rw [h₁.run]
    simp only [List.map_cons, List.map_nil, ha, hb, hz]
    rfl
  · rw [h₂.run]
    simp only [List.map_cons, List.map_nil, ha, hb, hz]
    rfl

/-- The output of the second program is where the snapshot of the first one goes, so the program
that comes last decides what is there. -/
theorem run_dependent_on_order :
    let toRust : Step := ⟨"to-rust", fun t => .ok (t.setAttribute Tree.codeKey "pub struct S;")⟩
    let stage : Binarize := ⟨{ steps := [toRust] }, { enabled := true }, ⟨⟨"out"⟩, ⟨"cache"⟩⟩⟩
    let program (name input : String) : Program :=
      { name := name, source := ⟨"s.eo"⟩, intermediate := ⟨"s.json"⟩, optimized := some ⟨input⟩ }
    let a := program "app" "in/a.json"
    let b := program "app.001-to-rust" "in/b.json"
    let tree (name : String) : Tree := .ofName name
    let inputs : Entry := .directory [("a.json", .file (tree "app").render.toUTF8 1),
      ("b.json", .file (tree "app.001-to-rust").render.toUTF8 1)] 1
    let s : Site := { files := ⟨.directory [("work", .directory [("in", inputs)] 1)] 1, ["work"], 5⟩ }
    let shared (ps : List Program) := ((stage.run ps).on s).2.files.item?
      ["work", "out", "binarize", "app", "001-to-rust.json"]
    let coded (name : String) := ((tree name).setAttribute Tree.codeKey "pub struct S;").render.toUTF8
    stage.workshop.scheme.Clash b a ∧
      shared [a, b] = some (.file (coded "app.001-to-rust") 5) ∧
      shared [b, a] = some (.file (coded "app") 5) := by
  decide +kernel

end Trainyard.Stage.Binarize
