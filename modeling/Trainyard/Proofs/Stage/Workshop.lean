import Mathlib.Data.List.Pairwise
import Trainyard.Proofs.Stage.Scheme

/-!
# Workshops

A stage makes its directories, sorts its programs as they stand then, and works on those
that are due: it loads a tree, sends it through a train, and finishes the result. Programs
of different places stay apart: each has its own outputs, snapshots and memo entries, and
the directories are shared. So the order of a batch does not matter, nor do the other
programs in it.
-/

set_option autoImplicit false

namespace Trainyard.Stage

/-! ## Making the directories -/

namespace Scheme

variable {S : Scheme} {l : Layout} {ps : List Program} {p : Program} {s s₀ : Site} {u : Unit}

def prepare (S : Scheme) (l : Layout) (ps : List Program) : Job WorkError Unit := do
  Job.makeDirectories (.io (l.target.child S.outputs)) (l.target.child S.outputs)
  if ps.any (·.digest.isSome) then
    Job.makeDirectories (.io (l.cache.child S.entries)) (l.cache.child S.entries)

theorem evolves_on_prepare (S : Scheme) (l : Layout) (ps : List Program) (s : Site) :
    s.files.Evolves (fun _ _ => False) ((S.prepare l ps).on s).2.files := by
  have hwithin : Job.Within s.files.working (fun _ _ => False) (S.prepare l ps) := by
    refine Job.within_bind (Job.within_makeDirectories _ _) fun _ => ?_
    split
    · exact Job.within_makeDirectories _ _
    · exact Job.within_pure ()
  exact hwithin s rfl

theorem opens_of_on_makeDirectories {ε : Type} {f : OsError → ε} {dir : Path}
    (h : (Job.makeDirectories f dir).on s = (.ok u, s₀)) :
    FileSystem.Opens (dir.way s.files.working) s.files s₀.files := by
  have hopens := FileSystem.opens_makeDirectories dir s.files
  rw [Job.on_makeDirectories] at h
  rwa [← (Prod.mk.inj h).2]

theorem enters_of_on_makeDirectories {ε : Type} {f : OsError → ε} {base : Path} {name : String}
    (hname : Path.Stem name) (h : (Job.makeDirectories f (base.child name)).on s = (.ok u, s₀)) :
    s₀.files.Enters base := by
  rw [Job.on_makeDirectories] at h
  rcases hmade : s.files.makeDirectories (base.child name) with ⟨result, fs⟩
  rw [hmade] at h
  cases result with
  | error e => simp at h
  | ok u' =>
    cases h
    have henters := FileSystem.enters_of_makeDirectories (Path.isEmpty_child hname.plain base) hmade
    exact ((FileSystem.enters_child hname.plain).1 henters).1

theorem prepared_of_on_prepare (hS : S.Tidy) (h : (S.prepare l ps).on s = (.ok u, s₀))
    (hp : p ∈ ps) : Prepared s₀.files l p := by
  obtain ⟨⟨⟩, s₁, htarget, hcache⟩ := Job.on_bind_ok h
  have htarget := enters_of_on_makeDirectories hS.outputs htarget
  by_cases hany : ps.any (·.digest.isSome) = true
  · rw [if_pos hany] at hcache
    refine ⟨?_, fun _ => enters_of_on_makeDirectories hS.entries hcache⟩
    have hgrows := (opens_of_on_makeDirectories hcache).toGrows
    exact htarget.mono hgrows.working fun _ => hgrows.directory
  · rw [if_neg hany] at hcache
    cases hcache
    exact ⟨htarget, fun hdigest => absurd (List.any_eq_true.2 ⟨p, hp, hdigest⟩) hany⟩

theorem prepare_congr {qs : List Program}
    (h : qs.any (·.digest.isSome) = ps.any (·.digest.isSome)) : S.prepare l qs = S.prepare l ps := by
  rw [prepare, prepare, h]

end Scheme

/-! ## Work on a program -/

structure Workshop where
  scheme : Scheme
  train : Train
  layout : Layout
  input : Program → Option Path
  -- said of a program without an input
  unsupplied : Program → WorkError
  finish : Program → Place → Tree → Job WorkError (Outcome × Program)
  standing : FileSystem → Program → Standing
  -- the paths whose times decide where a program stands
  watched : Program → List Path

namespace Workshop

variable (W : Workshop)

def cacheDir : Path := W.layout.cache.child W.scheme.entries

def task (p : Program) : Job WorkError (Outcome × Program) := do
  let place ← Job.ofExcept .place p.place
  match W.input p with
  | none => Job.fail (W.unsupplied p)
  | some input => do
    let tree ← Job.adapt .tree (Tree.load input)
    let result ← applyTo W.train.optimization W.cacheDir p tree
    W.finish p place result

def prepare (ps : List Program) : Job WorkError Unit := W.scheme.prepare W.layout ps

def footprint (working : Key) (p : Program) : Footprint :=
  W.scheme.footprint W.layout working p (W.input p).toList

theorem covers_outputs (hS : W.scheme.Tidy) {p : Program} {place : Place}
    (hplace : p.place = .ok place) (working : Key) :
    ∃ front stem, ∀ e ∈ W.scheme.extensions,
      place.within (W.layout.target.child W.scheme.outputs) e =
          W.layout.target.descend (front ++ [stem ++ Place.ending e]) ∧
        (W.footprint working p).Covers working W.layout.target front (stem ++ Place.ending e) :=
  Scheme.covers_outputs hS hplace

def line (s : Site) (p : Program) : Line := lineOf p (W.standing s.files p) ((W.task p).on s).1

def part (s : Site) (p : Program) : FileSystem := filesOf W.task s p (W.standing s.files p)

structure Runs (pass : List Program → Job WorkError Ledger)
    (run : List Program → Job WorkError (Report × List Program)) : Prop where
  tidy : W.scheme.Tidy
  stations : W.scheme.stations = W.train.stationNames
  snapshots : ∀ dir ∈ W.train.snapshots, dir = W.layout.target.child W.scheme.snapshots
  stands : ∀ fs fs' p, (∀ path ∈ W.watched p, fs'.modified? path = fs.modified? path) →
    W.standing fs' p = W.standing fs p
  finishes : ∀ s p place r, p.place = .ok place →
    (W.footprint s.files.working p).Ready s.files →
    Job.Steady (W.footprint s.files.working p) (W.finish p place r) s
  unprepared : ∀ ps s e s', (W.prepare ps).on s = (.error e, s') →
    ∃ s₁, s₁.files = s'.files ∧ (run ps).on s = (.error e, s₁)
  prepared : ∀ ps s u s', (W.prepare ps).on s = (.ok u, s') →
    ∃ s₁, s₁.files = s'.files ∧ (pass ps).on s =
      (execute W.task (Plan.make (W.standing s'.files) ps)).on s₁
  settles : ∀ ps s ledger s', (pass ps).on s = (.ok ledger, s') →
    ∃ s₁, s₁.files = s'.files ∧ Settles (pass ps) (run ps) s ledger s₁

/-- Programs of different places, with trees that carry their names and lie outside of the
directories the stage writes to. If there are snapshots, so do the trees in their memo entries
carry their names. Outputs are not where the snapshots of other programs go. -/
structure Batch (fs : FileSystem) (ps : List Program) : Prop where
  keeps : W.train.KeepsName
  places : ps.Pairwise Program.Elsewhere
  clash : W.scheme.outputs = W.scheme.snapshots → ∀ p ∈ ps, ∀ q ∈ ps, ¬ W.scheme.Clash p q
  names : ∀ p ∈ ps, ∀ input ∈ W.input p, ∀ t ∈ Tree.at? fs (input.key fs.working),
    t.name? = some p.name
  outside : ∀ p ∈ ps, W.scheme.Outside W.layout fs.working (W.input p).toList
  entries : W.train.snapshots ≠ none → ∀ p ∈ ps, ∀ d ∈ p.digest, ∀ place, p.place = .ok place →
    Memo.Sound (·.name? = some p.name) fs (Memo.slot fs.working (W.cacheDir.child d.toHex) place)

variable {W} {fs fs' : FileSystem} {ps qs : List Program} {p q : Program} {s s₀ : Site} {u : Unit}
  {pass : List Program → Job WorkError Ledger}
  {run : List Program → Job WorkError (Report × List Program)}

namespace Batch

theorem evolve (h : W.Batch fs ps) (he : fs.Evolves (fun _ _ => False) fs') : W.Batch fs' ps := by
  refine ⟨h.keeps, h.places, h.clash, fun p hp input hinput t ht => ?_, ?_,
    fun hsnapshots p hp d hd place hplace => ?_⟩
  · obtain ⟨raw, time, hitem, hraw⟩ := Tree.at?_eq_some.1 ht
    rw [he.working] at hitem
    have hbefore := (he.file_cases hitem).resolve_right fun hw => hw.1
    exact h.names p hp input hinput t (Tree.at?_eq_some.2 ⟨raw, time, hbefore, hraw⟩)
  · rw [he.working]
    exact h.outside
  · rw [he.working]
    exact (h.entries hsnapshots p hp d hd place hplace).evolve he fun _ hw => hw.elim

theorem subset (h : W.Batch fs ps) (hsub : ∀ q ∈ qs, q ∈ ps)
    (hplaces : qs.Pairwise Program.Elsewhere) : W.Batch fs qs :=
  ⟨h.keeps, hplaces, fun heq p hp q hq => h.clash heq p (hsub p hp) q (hsub q hq),
    fun q hq => h.names q (hsub q hq), fun q hq => h.outside q (hsub q hq),
    fun hsnapshots q hq => h.entries hsnapshots q (hsub q hq)⟩

theorem perm (h : W.Batch fs ps) (hperm : qs.Perm ps) : W.Batch fs qs :=
  h.subset (fun _ => hperm.mem_iff.1) (h.places.perm hperm.symm Program.Elsewhere.symm)

theorem sublist (h : W.Batch fs ps) (hsub : qs.Sublist ps) : W.Batch fs qs :=
  h.subset (fun _ hq => hsub.subset hq) (h.places.sublist hsub)

/-- The work on a program is the same beside work that stays apart from it. -/
theorem steady_task (h : W.Batch s.files ps) (hW : W.Runs pass run) (hp : p ∈ ps)
    (hready : (W.footprint s.files.working p).Ready s.files) :
    Job.Steady (W.footprint s.files.working p) (W.task p) s := by
  refine Job.steady_bind hready (Job.steady_ofExcept _ _) fun place s₁ hplaced _ hready₁ => ?_
  obtain ⟨hplace, rfl⟩ := Job.on_ofExcept_ok hplaced
  cases hinput : W.input p with
  | none => exact Job.steady_fail _
  | some input =>
    have hseen : ∀ k ∈ input.way s₁.files.working, (W.footprint s₁.files.working p).seen k :=
      fun k hk => ⟨input, by simp [hinput], hk⟩
    refine Job.steady_bind hready₁ (Job.steady_adapt _ (Tree.steady_load hready₁ hseen))
      fun t s₂ hloaded _ hready₂ => ?_
    have hload := Job.on_adapt_ok hloaded
    obtain ⟨raw, time, hstat, ht⟩ := Tree.on_load_ok hload
    have hitem := FileSystem.item?_of_stat_file hstat
    have hname := h.names p hp input hinput t (Tree.at?_eq_some.2 ⟨raw, time, hitem, ht⟩)
    obtain rfl : s₂ = s₁ := by simpa only [hload] using Tree.snd_on_load input s₁
    refine Job.steady_bind hready₂ (steady_applyTo hready₂ h.keeps hname ?_ ?_ ?_)
      fun r s₃ _ hworking hready₃ => ?_
    · intro other hother dir hdir
      rw [← hW.stations]
      exact Scheme.takes_snapshots hW.tidy hother dir (by rw [hW.snapshots dir hdir]; rfl)
    · intro d hd other hother
      exact Scheme.takes_entry hW.tidy hother hd
    · intro hsnapshots d hd other hother
      exact h.entries hsnapshots p hp d hd other hother
    · rw [← hworking] at hready₃ ⊢
      exact hW.finishes s₃ p place r hplace hready₃

theorem apart (h : W.Batch fs ps) (hW : W.Runs pass run)
    (hprepared : ∀ p ∈ ps, Scheme.Prepared fs W.layout p) (hp : p ∈ ps) (hq : q ∈ ps)
    (hplaces : p.Elsewhere q) :
    FileSystem.Apart fs (W.footprint fs.working p) (W.footprint fs.working q) :=
  Scheme.apart_footprint hW.tidy (hprepared q hq) hplaces
    (fun heq => ⟨h.clash heq p hp q hq, h.clash heq q hq p hp⟩) (h.outside p hp)

theorem prepared (h : W.Batch s.files ps) (hW : W.Runs pass run)
    (hprepare : (W.prepare ps).on s = (.ok u, s₀)) :
    W.Batch s₀.files ps ∧ s₀.files.working = s.files.working ∧
      ∀ p ∈ ps, Scheme.Prepared s₀.files W.layout p := by
  have hevolves := W.scheme.evolves_on_prepare W.layout ps s
  rw [show (W.scheme.prepare W.layout ps).on s = (.ok u, s₀) from hprepare] at hevolves
  exact ⟨h.evolve hevolves, hevolves.working,
    fun p hp => Scheme.prepared_of_on_prepare hW.tidy hprepare hp⟩

end Batch

/-! ## A run -/

/-- However workers take turns, every program of a batch is settled as it would be alone. -/
theorem Batch.of_shared (h : W.Batch s.files ps) (hW : W.Runs pass run)
    (hprepare : (W.prepare ps).on s = (.ok u, s₀)) {s₁ s' : Site} (hfiles : s₁.files = s₀.files)
    {ledger : Ledger}
    (hshared : (Plan.make (W.standing s₀.files) ps).Shared W.task s₁ ledger s') :
    ledger = ps.map (W.line s₀) ∧
      FileSystem.Merged s₀.files (ps.map (W.part s₀)) s'.files := by
  obtain ⟨h₀, -, hprepared⟩ := h.prepared hW hprepare
  let plan := Plan.make (W.standing s₀.files) ps
  have hapart : plan.Pairwise fun a b =>
      FileSystem.Apart s₀.files (W.footprint s₀.files.working a.1)
        (W.footprint s₀.files.working b.1) ∧
      FileSystem.Apart s₀.files (W.footprint s₀.files.working b.1)
        (W.footprint s₀.files.working a.1) := by
    refine List.pairwise_map.2 (h₀.places.imp_of_mem fun hp hq hplaces => ?_)
    exact ⟨h₀.apart hW hprepared hp hq hplaces, h₀.apart hW hprepared hq hp hplaces.symm⟩
  have hready : ∀ item ∈ plan, (W.footprint s₀.files.working item.1).Ready s₀.files := by
    intro item hitem
    obtain ⟨p, hp, rfl⟩ := List.mem_map.1 hitem
    exact (hprepared p hp).ready
  have hsteady : ∀ item ∈ plan,
      Job.Steady (W.footprint s₀.files.working item.1) (W.task item.1) s₀ := by
    intro item hitem
    obtain ⟨p, hp, rfl⟩ := List.mem_map.1 hitem
    exact h₀.steady_task hW hp (hprepared p hp).ready
  obtain ⟨hledger, hmerged⟩ := hshared.beside hfiles hready hsteady hapart
  have hlines : (plan.map fun item => lineOf item.1 item.2 ((W.task item.1).on s₀).1) =
      ps.map (W.line s₀) := List.map_map
  have hparts : (plan.map fun item => filesOf W.task s₀ item.1 item.2) = ps.map (W.part s₀) :=
    List.map_map
  rw [hlines] at hledger
  rw [hparts] at hmerged
  exact ⟨hledger, hmerged⟩

theorem Batch.on_run (h : W.Batch s.files ps) (hW : W.Runs pass run)
    (hprepare : (W.prepare ps).on s = (.ok u, s₀)) :
    ∃ s', Settles (pass ps) (run ps) s (ps.map (W.line s₀)) s' ∧
      FileSystem.Merged s₀.files (ps.map (W.part s₀)) s'.files := by
  obtain ⟨s₁, hfiles, hpass⟩ := hW.prepared ps s u s₀ hprepare
  obtain ⟨ledger, s₂, hexecute, hshared⟩ :=
    Plan.shared_execute (Plan.make (W.standing s₀.files) ps) W.task s₁
  obtain ⟨rfl, hmerged⟩ := h.of_shared hW hprepare hfiles hshared
  obtain ⟨s', hfiles', hsettles⟩ := hW.settles ps s _ s₂ (hpass.trans hexecute)
  exact ⟨s', hsettles, hfiles' ▸ hmerged⟩

/-- Workers who take turns, however they do it, come to the ledger of the run and leave the same
files. -/
theorem Batch.run_shared (h : W.Batch s.files ps) (hW : W.Runs pass run)
    (hprepare : (W.prepare ps).on s = (.ok u, s₀)) {ledger : Ledger} {s' : Site}
    (hshared : (Plan.make (W.standing s₀.files) ps).Shared W.task s₀ ledger s') :
    ∃ s₁, Settles (pass ps) (run ps) s ledger s₁ ∧ FileSystem.Same s₁.files s'.files := by
  obtain ⟨rfl, hmerged⟩ := h.of_shared hW hprepare rfl hshared
  obtain ⟨s₁, hsettles, hmerged₁⟩ := h.on_run hW hprepare
  exact ⟨s₁, hsettles, hmerged₁.same hmerged fun _ => Iff.rfl⟩

/-- The order of the programs does not matter. -/
theorem Batch.run_perm (h : W.Batch s.files ps) (hW : W.Runs pass run) (hperm : qs.Perm ps) :
    ∃ s₁ s₂, FileSystem.Same s₁.files s₂.files ∧
      ((∃ e, (run ps).on s = (.error e, s₁) ∧ (run qs).on s = (.error e, s₂)) ∨
        ∃ line : Program → Line, Settles (pass ps) (run ps) s (ps.map line) s₁ ∧
          Settles (pass qs) (run qs) s (qs.map line) s₂) := by
  have hsame : W.prepare qs = W.prepare ps := Scheme.prepare_congr hperm.any_eq
  rcases hprepare : (W.prepare ps).on s with ⟨x, s₀⟩
  cases x with
  | error e =>
    obtain ⟨s₁, hfiles, hrun⟩ := hW.unprepared ps s e s₀ hprepare
    obtain ⟨s₂, hfiles', hrun'⟩ := hW.unprepared qs s e s₀ (hsame ▸ hprepare)
    exact ⟨s₁, s₂, by rw [hfiles, hfiles']; exact ⟨rfl, rfl, fun _ => rfl⟩, .inl ⟨e, hrun, hrun'⟩⟩
  | ok u =>
    obtain ⟨s₁, hsettles, hmerged⟩ := h.on_run hW hprepare
    obtain ⟨s₂, hsettles', hmerged'⟩ := (h.perm hperm).on_run hW (hsame ▸ hprepare)
    refine ⟨s₁, s₂, hmerged.same hmerged' fun part => ?_, .inr ⟨_, hsettles, hsettles'⟩⟩
    exact (hperm.map _).mem_iff

/-! ## A part of a batch -/

variable (W) in
/-- Whether the directory for memo entries is made makes no difference to the programs: it is
reached past the target directory, and the paths of the programs lead to no directory and past
all that has to be made. -/
structure Unaffected (fs : FileSystem) (qs : List Program) : Prop where
  target : ∀ k ∈ W.cacheDir.way fs.working, ¬ W.layout.target.key fs.working <+: k
  directory : ∀ q ∈ qs, ∀ path ∈ W.watched q, fs.item? (path.key fs.working) ≠ some .directory
  way : ∀ q ∈ qs, ∀ path ∈ (W.input q).toList ++ W.watched q, ∀ k ∈ path.way fs.working,
    k ∈ W.cacheDir.way fs.working → fs.item? k ≠ none

/-- With the directories made for some programs and for more of them, the first ones stand the
same, and all that is different keeps away from their work. -/
theorem Batch.prepare_part (h : W.Batch s.files ps) (hW : W.Runs pass run) (hsub : qs.Sublist ps)
    (hunaffected : qs.any (·.digest.isSome) = ps.any (·.digest.isSome) ∨ W.Unaffected s.files qs)
    (hprepare : (W.prepare ps).on s = (.ok u, s₀)) :
    ∃ s₁, (W.prepare qs).on s = (.ok (), s₁) ∧ ∀ q ∈ qs,
      FileSystem.Beside (W.footprint s.files.working q) s₁.files s₀.files ∧
        W.standing s₀.files q = W.standing s₁.files q := by
  by_cases hany : qs.any (·.digest.isSome) = ps.any (·.digest.isSome)
  · have hsame : W.prepare qs = W.prepare ps := Scheme.prepare_congr hany
    refine ⟨s₀, hsame ▸ hprepare, fun q hq => ⟨?_, rfl⟩⟩
    obtain ⟨-, -, hprepared⟩ := h.prepared hW hprepare
    exact (hprepared q (hsub.subset hq)).beside
  · have hunaffected := hunaffected.resolve_left hany
    have hmono : qs.any (·.digest.isSome) = true → ps.any (·.digest.isSome) = true := by
      intro hqs
      obtain ⟨q, hq, hdigest⟩ := List.any_eq_true.1 hqs
      exact List.any_eq_true.2 ⟨q, hsub.subset hq, hdigest⟩
    obtain ⟨hqs, hps⟩ : qs.any (·.digest.isSome) = false ∧ ps.any (·.digest.isSome) = true := by
      revert hany hmono
      cases qs.any (·.digest.isSome) <;> cases ps.any (·.digest.isSome) <;> simp
    obtain ⟨⟨⟩, s₁, houtputs, hentries⟩ := Job.on_bind_ok hprepare
    rw [if_pos hps] at hentries
    have hopens := Scheme.opens_of_on_makeDirectories houtputs
    have hopens' := Scheme.opens_of_on_makeDirectories hentries
    have hprepare' : (W.prepare qs).on s = (.ok (), s₁) := by
      rw [prepare, Scheme.prepare, Job.on_bind, houtputs]
      simp only [hqs]
      rfl
    refine ⟨s₁, hprepare', fun q hq => ⟨?_, ?_⟩⟩
    · have hdigest : q.digest = none := by simpa using List.any_eq_false.1 hqs q hq
      have hprepared := Scheme.prepared_of_on_prepare hW.tidy hprepare' hq
      rw [← hopens.working]
      refine hprepared.beside_opens hdigest hopens' ?_ fun input hinput k hk hkeys => ?_
      · rw [hopens.working]
        exact hunaffected.target
      · rw [hopens.working] at hk hkeys
        exact hopens.ne_none
          (hunaffected.way q hq input (List.mem_append_left _ hinput) k hk hkeys)
    · refine hW.stands _ _ q fun path hpath => ?_
      refine hopens.modified? hopens' (hunaffected.directory q hq path hpath) fun k hk hkeys => ?_
      rw [hopens.working] at hkeys
      exact hunaffected.way q hq path (List.mem_append_right _ hpath) k hk hkeys

theorem Batch.alike_part (h : W.Batch s₀.files ps) (hW : W.Runs pass run) (hp : p ∈ ps)
    (hb : FileSystem.Beside (W.footprint s₀.files.working p) s₀.files s.files)
    (hstanding : W.standing s.files p = W.standing s₀.files p) :
    W.line s p = W.line s₀ p ∧
      FileSystem.Alike (W.footprint s₀.files.working p) s₀.files (W.part s₀ p) s.files
        (W.part s p) := by
  rw [line, line, part, part, hstanding]
  exact alike_filesOf ((h.steady_task hW hp hb.enters).agrees hb) _

theorem Batch.mark_own (h : W.Batch s₀.files ps) (hW : W.Runs pass run)
    (hprepared : ∀ p ∈ ps, Scheme.Prepared s₀.files W.layout p)
    (hmerged : FileSystem.Merged s₀.files (ps.map (W.part s₀)) fs') (hq : q ∈ ps) {k : Key}
    (hk : (W.footprint s₀.files.working q).own k) :
    (s₀.files.item? k = some .directory ∧ fs'.item? k = some .directory) ∨
      (s₀.files.item? k ≠ some .directory ∧ fs'.mark? k = (W.part s₀ q).mark? k) := by
  have halike (p : Program) (hp : p ∈ ps) := (h.alike_part hW hp (hprepared p hp).beside rfl).2
  by_cases hdir : s₀.files.item? k = some .directory
  · refine .inl ⟨hdir, hmerged.directory hdir fun part hpart => ?_⟩
    obtain ⟨p, hp, rfl⟩ := List.mem_map.1 hpart
    exact (halike p hp).grows.directory hdir
  · refine .inr ⟨hdir, hmerged.mark_eq_part (List.mem_map_of_mem hq) fun other hother => ?_⟩
    obtain ⟨p, hp, rfl⟩ := List.mem_map.1 hother
    by_cases hpq : p = q
    · exact .inr (by rw [hpq])
    · left
      rcases (halike p hp).mark k with ⟨hsame, -⟩ | ⟨m, hm, -⟩
      · exact hsame
      · have hapart := h.apart hW hprepared hq hp (h.places.forall hq hp (Ne.symm hpq))
        exact absurd (hapart k (.inl hk) (hm.imp (·.1) (·.1))) hdir

/-- Other programs do not matter to those of a batch. -/
theorem Batch.run_sublist (h : W.Batch s.files ps) (hW : W.Runs pass run) (hsub : qs.Sublist ps)
    (hunaffected : qs.any (·.digest.isSome) = ps.any (·.digest.isSome) ∨ W.Unaffected s.files qs)
    {answer : Report × List Program} {s₁ : Site} (hrun : (run ps).on s = (.ok answer, s₁)) :
    ∃ (line : Program → Line) (s₂ : Site), Settles (pass ps) (run ps) s (ps.map line) s₁ ∧
      Settles (pass qs) (run qs) s (qs.map line) s₂ ∧
      ∀ q ∈ qs, ∀ k, (W.footprint s.files.working q).own k →
        s₂.files.item? k = s₁.files.item? k := by
  rcases hprepare : (W.prepare ps).on s with ⟨x, s₀⟩
  cases x with
  | error e =>
    obtain ⟨s', -, hfails⟩ := hW.unprepared ps s e s₀ hprepare
    rw [hfails] at hrun
    cases hrun
  | ok u =>
    have hqs := h.sublist hsub
    obtain ⟨s₀', hprepare', hpart⟩ := h.prepare_part hW hsub hunaffected hprepare
    obtain ⟨h₀, hworking, hprepared⟩ := h.prepared hW hprepare
    obtain ⟨h₀', hworking', hprepared'⟩ := hqs.prepared hW hprepare'
    obtain ⟨s', hsettles, hmerged⟩ := h.on_run hW hprepare
    obtain ⟨s₂, hsettles', hmerged'⟩ := hqs.on_run hW hprepare'
    obtain rfl : s' = s₁ := by
      rw [hsettles.run] at hrun
      exact (Prod.mk.inj hrun).2
    rw [← hworking'] at hpart
    have halike (q : Program) (hq : q ∈ qs) := h₀'.alike_part hW hq (hpart q hq).1 (hpart q hq).2
    have hlines : qs.map (W.line s₀') = qs.map (W.line s₀) :=
      List.map_congr_left fun q hq => (halike q hq).1.symm
    rw [hlines] at hsettles'
    refine ⟨_, s₂, hsettles, hsettles', fun q hq k hk => ?_⟩
    have hown := h₀.mark_own hW hprepared hmerged (hsub.subset hq) (by rw [hworking]; exact hk)
    have hown' := h₀'.mark_own hW hprepared' hmerged' hq (by rw [hworking']; exact hk)
    rw [← hworking'] at hk
    have hitem := (hpart q hq).1.item_eq (.inl hk)
    rcases hown with ⟨hdir, hend⟩ | ⟨hdir, hend⟩
    · rcases hown' with ⟨-, hend'⟩ | ⟨hdir', -⟩
      · rw [hend, hend']
      · exact absurd (hitem.symm.trans hdir) hdir'
    · rcases hown' with ⟨hdir', -⟩ | ⟨hdir', hend'⟩
      · exact absurd (hitem.trans hdir') hdir
      · refine FileSystem.item?_congr ?_
        rw [hend, hend']
        rcases (halike q hq).2.mark k with ⟨hsame, hsame'⟩ | ⟨m, -, hset, hset'⟩
        · rw [hsame, hsame']
          exact (((hpart q hq).1.fixed k (.inl hk)).resolve_left hdir').symm
        · rw [hset, hset']

end Workshop

end Trainyard.Stage
