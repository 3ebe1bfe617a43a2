import Trainyard.Proofs.FileSystem.Footprint
import Trainyard.Proofs.Artifact

/-!
# Jobs beside other work

Between two actions of a job others may change the files. `Follows` says that the job answers and
changes what it would alone, as long as others keep away from its footprint, and `Steady` that it
does so from a site on. Steadiness holds of the single jobs that look, make directories and write,
and it is passed on from jobs to what is put together from them.
-/

set_option autoImplicit false

namespace Trainyard

/-! ## Jobs -/

namespace Job

variable {ε ε' α β : Type} {F : Footprint} {s s' : Site} {fs fs₁ fs₂ : FileSystem}
  {job : Job ε α} {x : Except ε α}

def Agrees (F : Footprint) (action : Site → β × Site) (s s' : Site) : Prop :=
  (action s').1 = (action s).1 ∧
    FileSystem.Alike F s.files (action s).2.files s'.files (action s').2.files

/-- The job answers `x` and makes the changes that lead from `fs` to `fs'`, whatever others do
before each of its actions, as long as they keep away from the footprint. -/
def Follows (F : Footprint) (x : Except ε α) (fs' : FileSystem) : Job ε α → FileSystem → Prop
  | done result, fs => result = x ∧ fs = fs'
  | act action next, fs => ∀ s, FileSystem.Beside F fs s.files →
    ∃ fs₁, FileSystem.Alike F fs fs₁ s.files (action s).2.files ∧
      (next (action s).1).Follows F x fs' fs₁

/-- Whatever others do beside it, the job answers and changes what it would alone. -/
@[irreducible]
def Steady (F : Footprint) (job : Job ε α) (s : Site) : Prop :=
  -- kept folded, since comparing two of these would run the jobs
  job.Follows F (job.on s).1 (job.on s).2.files s.files

namespace Follows

/-- What others do all before the first action makes no difference. -/
theorem on (h : job.Follows F x fs₁ fs) (hb : FileSystem.Beside F fs s.files) :
    (job.on s).1 = x ∧ FileSystem.Alike F fs fs₁ s.files (job.on s).2.files := by
  induction job generalizing fs s with
  | done result =>
    obtain ⟨rfl, rfl⟩ := h
    exact ⟨rfl, .refl F _ _⟩
  | act action next ih =>
    obtain ⟨fs₂, halike, hnext⟩ := h s hb
    obtain ⟨hanswer, hchanges⟩ := ih _ hnext (hb.alike halike)
    exact ⟨hanswer, halike.trans hchanges⟩

theorem grows (h : job.Follows F x fs₁ fs) (hready : F.Ready fs) : FileSystem.Grows fs fs₁ := by
  let s : Site := { files := fs }
  have hb : FileSystem.Beside F fs s.files := .refl hready
  exact (h.on hb).2.grows

theorem andThen {f : Except ε α → Job ε' β} {y : Except ε' β} (h : job.Follows F x fs₁ fs)
    (hf : (f x).Follows F y fs₂ fs₁) : (job.andThen f).Follows F y fs₂ fs := by
  induction job generalizing fs with
  | done result =>
    obtain ⟨rfl, rfl⟩ := h
    exact hf
  | act action next ih =>
    intro s hb
    obtain ⟨fs', halike, hnext⟩ := h s hb
    exact ⟨fs', halike, ih _ hnext⟩

theorem bind {f : α → Job ε β} {a : α} {y : Except ε β} (h : job.Follows F (.ok a) fs₁ fs)
    (hf : (f a).Follows F y fs₂ fs₁) : (job >>= f).Follows F y fs₂ fs := h.andThen hf

theorem bind_error {f : α → Job ε β} {e : ε} (h : job.Follows F (.error e) fs₁ fs) :
    (job >>= f).Follows F (.error e) fs₁ fs := h.andThen ⟨rfl, rfl⟩

theorem adapt (f : ε → ε') (h : job.Follows F x fs₁ fs) :
    (job.adapt f).Follows F (x.mapError f) fs₁ fs := h.andThen ⟨rfl, rfl⟩

theorem attempt (h : job.Follows F x fs₁ fs) :
    (job.attempt : Job ε' (Except ε α)).Follows F (.ok x) fs₁ fs := h.andThen ⟨rfl, rfl⟩

end Follows

theorem Steady.follows (h : Steady F job s) :
    job.Follows F (job.on s).1 (job.on s).2.files s.files := by
  rwa [Steady] at h

theorem steady_of_on {result : Except ε α × Site} (hon : job.on s = result)
    (h : job.Follows F result.1 result.2.files s.files) : Steady F job s := by
  rw [Steady, hon]
  exact h

theorem Steady.agrees (h : Steady F job s) (hb : FileSystem.Beside F s.files s'.files) :
    Agrees F job.on s s' := h.follows.on hb

theorem steady_of_agrees {action : Site → Except ε α × Site}
    (h : ∀ s', FileSystem.Beside F s.files s'.files → Agrees F action s s') :
    Steady F (single action) s :=
  steady_of_on rfl fun s' hb => ⟨_, (h s' hb).2, (h s' hb).1, rfl⟩

theorem steady_pure (a : α) : Steady F (pure a : Job ε α) s := steady_of_on rfl ⟨rfl, rfl⟩

theorem steady_fail (e : ε) : Steady F (fail e : Job ε α) s := steady_of_on rfl ⟨rfl, rfl⟩

theorem steady_ofExcept (f : ε' → ε) (x : Except ε' α) : Steady F (ofExcept f x) s := by
  cases x with
  | error e => exact steady_fail (f e)
  | ok a => exact steady_pure a

theorem follows_tell (e : Event) : (tell e : Job ε Unit).Follows F (.ok ()) fs fs :=
  fun _ _ => ⟨fs, .refl F _ _, rfl, rfl⟩

theorem steady_tell (e : Event) : Steady F (tell e : Job ε Unit) s :=
  steady_of_on rfl (follows_tell e)

theorem steady_countHit : Steady F (countHit : Job ε Unit) s :=
  steady_of_agrees fun _ _ => ⟨rfl, .refl F _ _⟩

theorem steady_countMiss : Steady F (countMiss : Job ε Unit) s :=
  steady_of_agrees fun _ _ => ⟨rfl, .refl F _ _⟩

theorem steady_countApplication : Steady F (countApplication : Job ε Unit) s :=
  steady_of_agrees fun _ _ => ⟨rfl, .refl F _ _⟩

theorem steady_bind {f : α → Job ε β} (hready : F.Ready s.files) (hjob : Steady F job s)
    (hf : ∀ a s₁, job.on s = (.ok a, s₁) → s₁.files.working = s.files.working →
      F.Ready s₁.files → Steady F (f a) s₁) : Steady F (job >>= f) s := by
  have hfollows := hjob.follows
  have hgrows := hfollows.grows hready
  rcases hrun : job.on s with ⟨x, s₁⟩
  rw [hrun] at hfollows hgrows
  cases x with
  | error e => exact steady_of_on (by rw [on_bind, hrun]) hfollows.bind_error
  | ok a =>
    have hnext := hf a s₁ hrun hgrows.working (hgrows.ready hready)
    exact steady_of_on (by rw [on_bind, hrun]) (hfollows.bind hnext.follows)

theorem steady_adapt (f : ε' → ε) {job : Job ε' α} (h : Steady F job s) :
    Steady F (adapt f job) s := steady_of_on (on_adapt f job s) (h.follows.adapt f)

theorem steady_attempt {job : Job ε' α} (h : Steady F job s) :
    Steady F (attempt job : Job ε (Except ε' α)) s :=
  steady_of_on (on_attempt job s) h.follows.attempt

/-- The files are looked at, and whatever of other work is seen there, the work goes on in the same
way. -/
theorem steady_files {f : FileSystem → Job ε α} {result : Except ε α × Site}
    (hon : (files >>= f).on s = result) (h : ∀ fs, FileSystem.Beside F s.files fs →
      (f fs).Follows F result.1 result.2.files s.files) : Steady F (files >>= f) s :=
  steady_of_on hon fun s' hb => ⟨s.files, .refl F _ _, h s'.files hb⟩

theorem steady_ask (f : OsError → ε) {question : FileSystem → Except OsError α}
    (h : ∀ fs, FileSystem.Beside F s.files fs → question fs = question s.files) :
    Steady F (ask f question) s := by
  exact steady_of_agrees fun s' hb => ⟨congrArg (Except.mapError f) (h s'.files hb), .refl F _ _⟩

theorem steady_change (f : OsError → ε) {action : FileSystem → Except OsError FileSystem}
    (h : ∀ fs, FileSystem.Beside F s.files fs →
      FileSystem.SameChange F s.files fs (action s.files) (action fs)) :
    Steady F (change f action) s := by
  refine steady_of_agrees fun s' hb => ?_
  rw [Agrees]
  rcases h s'.files hb with ⟨e, hfails, hfails'⟩ | ⟨fs₁, fs₁', hok, hok', halike⟩
  · rw [hfails, hfails']
    exact ⟨rfl, .refl F _ _⟩
  · rw [hok, hok']
    exact ⟨rfl, halike⟩

end Job

/-! ## Files below a base -/

structure Footprint.Covers (F : Footprint) (working : Key) (base : Path) (front : List String)
    (name : String) : Prop where
  based : F.bases base
  nonempty : front ≠ []
  fronts : ∀ n ∈ front, Path.Plain n
  named : Path.Plain name
  dirs : ∀ below, below <+: front → F.dirs (base.key working ++ below)
  own : F.own (base.key working ++ front ++ [name])

section Covers

variable {ε : Type} {F : Footprint} {s s' : Site} {base : Path} {front : List String}
  {name : String}

theorem Footprint.Covers.key {working : Key} (h : F.Covers working base front name) :
    (base.descend front).key working = base.key working ++ front :=
  Path.key_descend h.fronts base working

theorem Footprint.Covers.parent? {working : Key} (h : F.Covers working base front name) :
    (base.descend (front ++ [name])).parent? = some (base.descend front) :=
  Path.parent?_descend h.fronts base h.named h.nonempty

theorem Footprint.Covers.plain {working : Key} (h : F.Covers working base front name) :
    ∀ n ∈ front ++ [name], Path.Plain n := by
  rw [List.forall_mem_append, List.forall_mem_singleton]
  exact ⟨h.fronts, h.named⟩

theorem Footprint.Covers.exists_child {working : Key} (h : F.Covers working base front name) :
    ∃ (p : Path) (n : String), base.descend front = p.child n ∧ Path.Plain n := by
  obtain ⟨before, last, hfront⟩ := List.eq_nil_or_concat front |>.resolve_left h.nonempty
  rw [List.concat_eq_append] at hfront
  exact ⟨base.descend before, last, by rw [hfront, Path.descend_append],
    h.fronts last (by simp [hfront])⟩

namespace Job

theorem steady_makeDirectories (f : OsError → ε) (hc : F.Covers s.files.working base front name) :
    Steady F (makeDirectories f (base.descend front)) s := by
  refine steady_of_agrees fun s' hb => ?_
  obtain ⟨hanswer, halike⟩ := hb.makeDirectories hc.based hc.fronts hc.nonempty hc.dirs
  exact ⟨congrArg (Except.mapError f) hanswer, halike⟩

theorem enters_of_on_makeDirectories {f : OsError → ε} {s₁ : Site} {u : Unit}
    (hc : F.Covers s.files.working base front name)
    (h : (makeDirectories f (base.descend front)).on s = (.ok u, s₁)) :
    s₁.files.Enters (base.descend front) ∧
      FileSystem.refusal .nulInName (base.descend front) = none := by
  obtain ⟨p, n, hchild, hn⟩ := hc.exists_child
  have hempty : (base.descend front).isEmpty = false := by rw [hchild, Path.isEmpty_child hn]
  rw [on_makeDirectories] at h
  rcases hmade : s.files.makeDirectories (base.descend front) with ⟨result, fs⟩
  rw [hmade] at h
  cases result with
  | error e => simp at h
  | ok u' =>
    cases h
    refine ⟨FileSystem.enters_of_makeDirectories hempty hmade, ?_⟩
    cases hp : FileSystem.refusal .nulInName (base.descend front) with
    | none => rfl
    | some e => simp [FileSystem.makeDirectories_of_refused hempty hp] at hmade

theorem steady_write (f : OsError → ε) (b : ByteArray)
    (hc : F.Covers s.files.working base front name) (henters : s.files.Enters (base.descend front)) :
    Steady F (change f (·.write (base.descend (front ++ [name])) b)) s := by
  rw [Path.descend_append]
  refine steady_change f fun fs hb => hb.write hc.named b henters ?_ ?_ ?_
  · exact henters.mono hb.working fun _ => hb.directory
  · rw [hc.key]
    exact hc.own
  · rw [hc.key]
    exact hc.dirs front List.prefix_rfl

end Job

theorem Tree.steady_save (t : Tree) (hready : F.Ready s.files)
    (hc : F.Covers s.files.working base front name) :
    Job.Steady F (t.save (base.descend (front ++ [name]))) s := by
  rw [save, Job.writeText, Job.makeParent, hc.parent?]
  refine Job.steady_bind hready (Job.steady_makeDirectories _ hc) fun u s₁ hmade hworking _ => ?_
  obtain ⟨henters, -⟩ := Job.enters_of_on_makeDirectories hc hmade
  rw [← hworking] at hc
  exact Job.steady_write _ _ hc henters

theorem Tree.enters_of_on_save {t : Tree} {s₁ : Site} {u : Unit}
    (hc : F.Covers s.files.working base front name)
    (h : (t.save (base.descend (front ++ [name]))).on s = (.ok u, s₁)) :
    s₁.files.Enters (base.descend front) := by
  rw [save, Job.writeText, Job.makeParent, hc.parent?] at h
  obtain ⟨⟨⟩, s₂, hmade, hwrite⟩ := Job.on_bind_ok h
  obtain ⟨fs, hwritten, rfl⟩ := Job.on_change_ok hwrite
  have hframe := FileSystem.Evolves.of_setsFile (FileSystem.write_ok hwritten).1
  exact (Job.enters_of_on_makeDirectories hc hmade).1.mono hframe.working fun _ => hframe.directory

theorem Tree.steady_load {p : Path} (hready : F.Ready s.files)
    (hseen : ∀ k ∈ p.way s.files.working, F.seen k) : Job.Steady F (load p) s := by
  refine Job.steady_bind hready (Job.steady_ask _ fun fs hb => ?_) fun text s₁ _ _ _ => ?_
  · exact FileSystem.readText_congr (hb.view hseen)
  · split
    · exact Job.steady_pure _
    · exact Job.steady_fail _

namespace Artifact.Store

variable {store : Store} {relative : Path} {fs fs' : FileSystem}

theorem inspect_beside (hb : FileSystem.Beside F fs fs') (hc : F.Covers fs.working base front name)
    (hpath : store.pathOf relative = base.descend (front ++ [name])) :
    (store.inspect fs' relative).toOption = (store.inspect fs relative).toOption := by
  have hread := hb.read hc.based hc.plain (by simp) (by rw [← List.append_assoc]; exact hc.own)
  rw [toOption_inspect, toOption_inspect, hpath, hread]

/-- The cause of a failure may be another one beside other work. -/
theorem steady_read (hc : F.Covers s.files.working base front name)
    (hpath : store.pathOf relative = base.descend (front ++ [name])) :
    Job.Steady F (store.read relative : Job ε (Option Bytes)) s := by
  obtain ⟨s₁, hfiles, hread⟩ := store.on_read relative s
  refine Job.steady_files hread fun fs hb => ?_
  rw [hfiles, ← inspect_beside hb hc hpath]
  cases store.inspect fs relative with
  | ok payload => exact ⟨rfl, rfl⟩
  | error e =>
    dsimp only
    split
    · exact ⟨rfl, rfl⟩
    · exact (Job.follows_tell _).bind ⟨rfl, rfl⟩

theorem steady_write (payload : Bytes) (hready : F.Ready s.files)
    (hc : F.Covers s.files.working base front name)
    (hpath : store.pathOf relative = base.descend (front ++ [name])) :
    Job.Steady F (store.write relative payload) s := by
  simp only [write, hpath, hc.parent?, Option.getD_some]
  refine Job.steady_bind hready (Job.steady_makeDirectories _ hc) fun u s₁ hmade hworking hready₁ => ?_
  obtain ⟨henters, hp⟩ := Job.enters_of_on_makeDirectories hc hmade
  have hkey : (base.descend front).key s₁.files.working = base.key s.files.working ++ front := by
    rw [hworking, hc.key]
  have hdirs : F.dirs ((base.descend front).key s₁.files.working) := by
    rw [hkey]
    exact hc.dirs front List.prefix_rfl
  have hdisturb (fs : FileSystem) (hb : FileSystem.Beside F s₁.files fs) :=
    hb.disturb henters (henters.mono hb.working fun _ => hb.directory)
      (FileSystem.nul_of_refusal hp) hdirs
  refine Job.steady_bind hready₁ (Job.steady_change _ hdisturb) fun _ s₂ hdone hworking₂ hready₂ => ?_
  obtain ⟨fs₂, hdisturbed, rfl⟩ := Job.on_change_ok hdone
  have hframe := FileSystem.evolves_of_disturb (fun _ _ => False) hdisturbed
  have henters₂ := henters.mono hframe.working fun _ => hframe.directory
  rw [Path.descend_append]
  refine Job.steady_bind hready₂ (Job.steady_change _ fun fs hb => ?_)
    fun _ _ _ _ _ => Job.steady_pure _
  refine hb.replace hc.named _ henters₂ ?_ ?_ ?_
  · exact henters₂.mono hb.working fun _ => hb.directory
  · rw [hworking₂, hkey]
    exact hc.own
  · rw [hworking₂]
    exact hdirs

theorem steady_writeOnce (payload : Bytes) (hready : F.Ready s.files)
    (hc : F.Covers s.files.working base front name)
    (hpath : store.pathOf relative = base.descend (front ++ [name])) :
    Job.Steady F (store.writeOnce relative payload) s := by
  have hwrite : Job.Steady F (do
      let _ ← store.write relative payload
      pure true) s :=
    Job.steady_bind hready (steady_write payload hready hc hpath) fun _ _ _ _ _ => Job.steady_pure true
  cases hinspect : store.inspect s.files relative with
  | ok found =>
    refine Job.steady_files (on_writeOnce_of_good hinspect payload) fun fs hb => ?_
    have hsame := inspect_beside hb hc hpath
    cases hinspect' : store.inspect fs relative with
    | ok found' => exact ⟨rfl, rfl⟩
    | error e => simp [hinspect, hinspect', Except.toOption] at hsame
  | error e =>
    refine Job.steady_files (on_writeOnce_of_inspect hinspect payload) fun fs hb => ?_
    have hsame := inspect_beside hb hc hpath
    cases hinspect' : store.inspect fs relative with
    | ok found => simp [hinspect, hinspect', Except.toOption] at hsame
    | error e' => exact hwrite.follows

end Artifact.Store

end Covers

/-! ## Footprints of files -/

abbrev Files := Path → List String → String → Prop

structure Files.Tidy (files : Files) : Prop where
  nonempty : ∀ base front name, files base front name → front ≠ []
  fronts : ∀ base front name, files base front name → ∀ n ∈ front, Path.Stem n
  named : ∀ base front name, files base front name → Path.Plain name ∧ '.' ∈ name.toList

def Footprint.of (working : Key) (files : Files) (seen : Key → Prop) : Footprint where
  own k := ∃ base front name, files base front name ∧ k = base.key working ++ front ++ [name]
  dirs k := ∃ base front name below, files base front name ∧ below <+: front ∧
    k = base.key working ++ below
  seen := seen
  bases base := ∃ front name, files base front name

section FilesOf

variable {working : Key} {files files' : Files} {seen seen' : Key → Prop} {base : Path}
  {front : List String} {name : String}

theorem Footprint.covers_of (ht : files.Tidy) (h : files base front name) :
    (of working files seen).Covers working base front name where
  based := ⟨front, name, h⟩
  nonempty := ht.nonempty base front name h
  fronts n hn := (ht.fronts base front name h n hn).plain
  named := (ht.named base front name h).1
  dirs below hbelow := ⟨base, front, name, below, h, hbelow, rfl⟩
  own := ⟨base, front, name, h, rfl⟩

/-- Work on different files, none of which looks at what the other one makes. -/
theorem Footprint.apart_of {fs : FileSystem} (ht : files.Tidy) (ht' : files'.Tidy)
    (hbases : ∀ base front name, files' base front name →
      fs.item? (base.key working) = some .directory)
    (hown : ∀ base front name base' front' name', files base front name →
      files' base' front' name' →
      base.key working ++ front ++ [name] ≠ base'.key working ++ front' ++ [name'])
    (hseen : ∀ k, seen k → ∀ base first rest name, files' base (first :: rest) name →
      ¬ base.key working ++ [first] <+: k) :
    FileSystem.Apart fs (of working files seen) (of working files' seen') := by
  rintro k hk (⟨base', front', name', hfile', heq⟩ | ⟨base', front', name', below, hfile', hbelow, heq⟩)
  · rcases hk with ⟨base, front, name, hfile, rfl⟩ | hk
    · exact absurd heq (hown _ _ _ _ _ _ hfile hfile')
    · obtain ⟨first, rest, rfl⟩ := List.exists_cons_of_ne_nil (ht'.nonempty _ _ _ hfile')
      refine absurd ?_ (hseen k hk _ _ _ _ hfile')
      rw [heq]
      exact ⟨rest ++ [name'], by simp⟩
  · cases below with
    | nil =>
      rw [heq, List.append_nil]
      exact hbases _ _ _ hfile'
    | cons first rest =>
      rcases hk with ⟨base, front, name, hfile, rfl⟩ | hk
      · -- the name of a file has a dot, the names of directories have none
        obtain ⟨before, last, hlast⟩ := List.eq_nil_or_concat (first :: rest) |>.resolve_left (by simp)
        rw [List.concat_eq_append] at hlast
        rw [hlast, ← List.append_assoc] at heq
        have hname : name = last := by simpa using (List.append_inj' heq rfl).2
        have hmem : last ∈ front' := hbelow.subset (by rw [hlast]; simp)
        have hdot := (ht.named _ _ _ hfile).2
        rw [hname] at hdot
        exact absurd hdot (ht'.fronts _ _ _ hfile' last hmem).dot
      · obtain ⟨more, rfl⟩ := hbelow
        refine absurd ?_ (hseen k hk _ _ _ _ hfile')
        rw [heq]
        exact ⟨rest, by simp⟩

end FilesOf

end Trainyard
