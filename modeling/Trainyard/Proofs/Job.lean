import Trainyard.Job
import Trainyard.Proofs.FileSystem.Reach

/-!
# What jobs do to files

Every job is put together from a few that tell, count, look, make directories or
write one file. What a job may write follows from its parts: `Within` holds of a job
that writes only what is allowed, whatever it answers.
-/

set_option autoImplicit false

namespace Trainyard

section Errors

variable {ε ε' α : Type}

@[simp] theorem mapError_ok (f : ε → ε') (a : α) : (Except.ok a).mapError f = .ok a := rfl

@[simp] theorem mapError_error (f : ε → ε') (e : ε) :
    (Except.error e : Except ε α).mapError f = .error (f e) := rfl

end Errors

def Site.atTime (s : Site) (time : Nat) : Site := { s with files := { s.files with now := time } }

@[simp] theorem Site.stat_atTime (s : Site) (time : Nat) (p : Path) :
    (s.atTime time).files.stat p = s.files.stat p := rfl

@[simp] theorem Site.read_atTime (s : Site) (time : Nat) (p : Path) :
    (s.atTime time).files.read p = s.files.read p := rfl

@[simp] theorem Site.item?_atTime (s : Site) (time : Nat) (k : Key) :
    (s.atTime time).files.item? k = s.files.item? k := rfl

namespace Job

variable {ε ε' α β : Type}

theorem andThen_done (job : Job ε α) : job.andThen done = job := by
  induction job with
  | done result => rfl
  | act action next ih => exact congrArg (act action) (funext ih)

theorem andThen_andThen {ε'' γ : Type} (f : Except ε α → Job ε' β) (g : Except ε' β → Job ε'' γ)
    (job : Job ε α) : (job.andThen f).andThen g = job.andThen fun result => (f result).andThen g := by
  induction job with
  | done result => rfl
  | act action next ih => exact congrArg (act action) (funext ih)

instance : LawfulMonad (Job ε) := by
  refine LawfulMonad.mk' (Job ε) (fun job => ?_) (fun _ _ => rfl) (fun job f g => ?_)
  · show job.bind (fun a => pure a) = job
    refine Eq.trans (congrArg (job.andThen ·) (funext fun result => ?_)) (andThen_done job)
    cases result <;> rfl
  · show (job.bind f).bind g = job.bind fun a => (f a).bind g
    rw [bind, bind, bind, andThen_andThen]
    refine congrArg (job.andThen ·) (funext fun result => ?_)
    cases result <;> rfl

/-! ## Answers -/

@[simp] theorem on_tell (e : Event) (s : Site) :
    (tell e : Job ε Unit).on s = (.ok (), { s with journal := s.journal.push e }) := rfl

@[simp] theorem on_files (s : Site) : (files : Job ε FileSystem).on s = (.ok s.files, s) := rfl

theorem on_ofExcept (f : ε' → ε) (x : Except ε' α) (s : Site) :
    (ofExcept f x).on s = (x.mapError f, s) := by
  cases x <;> rfl

theorem on_adapt (f : ε' → ε) (job : Job ε' α) (s : Site) :
    (adapt f job).on s = ((job.on s).1.mapError f, (job.on s).2) := on_andThen _ job s

theorem on_attempt (job : Job ε' α) (s : Site) :
    (attempt job : Job ε (Except ε' α)).on s = (.ok (job.on s).1, (job.on s).2) :=
  on_andThen _ job s

theorem on_ask (f : OsError → ε) (question : FileSystem → Except OsError α) (s : Site) :
    (ask f question).on s = ((question s.files).mapError f, s) := rfl

theorem on_change (f : OsError → ε) (action : FileSystem → Except OsError FileSystem) (s : Site) :
    (change f action).on s = match action s.files with
      | .ok fs => (.ok (), { s with files := fs })
      | .error e => (.error (f e), s) := rfl

theorem on_makeDirectories (f : OsError → ε) (dir : Path) (s : Site) :
    (makeDirectories f dir).on s = ((s.files.makeDirectories dir).1.mapError f,
      { s with files := (s.files.makeDirectories dir).2 }) := rfl

theorem on_bind_ok {job : Job ε α} {f : α → Job ε β} {s s' : Site} {b : β}
    (h : (job >>= f).on s = (.ok b, s')) :
    ∃ a s₁, job.on s = (.ok a, s₁) ∧ (f a).on s₁ = (.ok b, s') := by
  rw [on_bind] at h
  rcases hjob : job.on s with ⟨r, s₁⟩
  rw [hjob] at h
  cases r with
  | error e => simp at h
  | ok a => exact ⟨a, s₁, rfl, h⟩

theorem on_of_fst {job : Job ε α} {s : Site} {x : Except ε α} (h : (job.on s).1 = x) :
    job.on s = (x, (job.on s).2) := by
  rw [← h]

theorem on_change_ok {f : OsError → ε} {action : FileSystem → Except OsError FileSystem}
    {s s' : Site} {u : Unit} (h : (change f action).on s = (.ok u, s')) :
    ∃ fs, action s.files = .ok fs ∧ s' = { s with files := fs } := by
  rw [on_change] at h
  cases haction : action s.files with
  | error e => simp [haction] at h
  | ok fs => exact ⟨fs, rfl, by simpa [haction] using h.symm⟩

theorem on_adapt_ok {f : ε' → ε} {job : Job ε' α} {s s' : Site} {a : α}
    (h : (adapt f job).on s = (.ok a, s')) : job.on s = (.ok a, s') := by
  rw [on_adapt] at h
  rcases hjob : job.on s with ⟨r, s₁⟩
  rw [hjob] at h
  cases r with
  | error e => simp at h
  | ok b => simpa using h

theorem on_ofExcept_ok {f : ε' → ε} {x : Except ε' α} {s s' : Site} {a : α}
    (h : (ofExcept f x).on s = (.ok a, s')) : x = .ok a ∧ s' = s := by
  cases x with
  | error e => simp [ofExcept] at h
  | ok b => simpa [ofExcept, eq_comm] using h

/-! ## Files -/

def Obeys (R : FileSystem → FileSystem → Prop) (job : Job ε α) : Prop :=
  ∀ s : Site, R s.files (job.on s).2.files

structure Composes (R : FileSystem → FileSystem → Prop) : Prop where
  refl : ∀ fs, R fs fs
  trans : ∀ {fs fs₁ fs₂}, R fs fs₁ → R fs₁ fs₂ → R fs fs₂

section Obeys

variable {R : FileSystem → FileSystem → Prop} (hR : Composes R)

include hR

theorem obeys_of_files_eq {job : Job ε α} (h : ∀ s, (job.on s).2.files = s.files) :
    Obeys R job := by
  intro s
  rw [h s]
  exact hR.refl _

theorem obeys_pure (a : α) : Obeys R (pure a : Job ε α) := obeys_of_files_eq hR fun _ => rfl

theorem obeys_tell (e : Event) : Obeys R (tell e : Job ε Unit) :=
  obeys_of_files_eq hR fun _ => rfl

theorem obeys_files : Obeys R (files : Job ε FileSystem) := obeys_of_files_eq hR fun _ => rfl

theorem obeys_ofExcept (f : ε' → ε) (x : Except ε' α) : Obeys R (ofExcept f x) :=
  obeys_of_files_eq hR fun s => by rw [on_ofExcept]

/-- What follows a job may count on what its answers have in common. -/
theorem obeys_bind_of (post : α → Prop) {job : Job ε α} {f : α → Job ε β} (hjob : Obeys R job)
    (hpost : ∀ s a s', job.on s = (.ok a, s') → post a) (hf : ∀ a, post a → Obeys R (f a)) :
    Obeys R (job >>= f) := by
  intro s
  have hfirst := hjob s
  rw [on_bind]
  rcases hrun : job.on s with ⟨r, s₁⟩
  rw [hrun] at hfirst
  cases r with
  | error e => exact hfirst
  | ok a => exact hR.trans hfirst (hf a (hpost s a s₁ hrun) s₁)

theorem obeys_bind {job : Job ε α} {f : α → Job ε β} (hjob : Obeys R job)
    (hf : ∀ a, Obeys R (f a)) : Obeys R (job >>= f) :=
  obeys_bind_of hR (fun _ => True) hjob (fun _ _ _ _ => trivial) fun a _ => hf a

omit hR in
theorem obeys_adapt (f : ε' → ε) {job : Job ε' α} (h : Obeys R job) : Obeys R (adapt f job) := by
  intro s
  rw [on_adapt]
  exact h s

theorem obeys_change (f : OsError → ε) {action : FileSystem → Except OsError FileSystem}
    (h : ∀ fs fs', action fs = .ok fs' → R fs fs') : Obeys R (change f action) := by
  intro s
  rw [on_change]
  cases haction : action s.files with
  | error e => exact hR.refl _
  | ok fs => exact h s.files fs haction

end Obeys

def Within (working : Key) (writes : FileSystem.Writes) (job : Job ε α) : Prop :=
  ∀ s : Site, s.files.working = working → s.files.Evolves writes (job.on s).2.files

section Within

variable {working : Key} {writes : FileSystem.Writes}

theorem composes_evolves (working : Key) (writes : FileSystem.Writes) :
    Composes fun fs fs' => fs.working = working → fs.Evolves writes fs' where
  refl fs _ := .refl writes fs
  trans hab hbc ha := by
    have hb := hab ha
    exact hb.trans (hbc (hb.working.trans ha))

theorem within_pure (a : α) : Within working writes (pure a : Job ε α) :=
  obeys_pure (composes_evolves working writes) a

theorem within_bind {job : Job ε α} {f : α → Job ε β} (hjob : Within working writes job)
    (hf : ∀ a, Within working writes (f a)) : Within working writes (job >>= f) :=
  obeys_bind (composes_evolves working writes) hjob hf

theorem within_makeDirectories (f : OsError → ε) (dir : Path) :
    Within working writes (makeDirectories f dir) := by
  intro s _
  rw [on_makeDirectories]
  exact (FileSystem.evolves_makeDirectories dir s.files).mono fun _ _ h => h.elim

theorem within_write (f : OsError → ε) {p : Path} {b : ByteArray} (hp : writes (p.key working) b) :
    Within working writes (change f (·.write p b)) := by
  refine obeys_change (composes_evolves working writes) f fun fs fs' h hw => ?_
  refine (FileSystem.Evolves.of_setsFile (FileSystem.write_ok h).1).mono ?_
  rintro k c ⟨rfl, rfl⟩
  rw [hw]
  exact hp

theorem within_replace (f : OsError → ε) {p : Path} {b : ByteArray}
    (hp : writes (p.key working) b) : Within working writes (change f (·.replace p b)) := by
  refine obeys_change (composes_evolves working writes) f fun fs fs' h hw => ?_
  refine (FileSystem.Evolves.of_setsFile (FileSystem.replace_ok h).1).mono ?_
  rintro k c ⟨rfl, rfl⟩
  rw [hw]
  exact hp

theorem within_disturb (f : OsError → ε) (dir : Path) :
    Within working writes (change f (·.disturb dir)) :=
  obeys_change (composes_evolves working writes) f fun _ _ h _ =>
    FileSystem.evolves_of_disturb writes h

theorem within_makeParent (f : Path → OsError → ε) (p : Path) :
    Within working writes (makeParent f p) := by
  rw [makeParent]
  split
  · exact within_makeDirectories _ _
  · exact within_pure ()

theorem evolves_on_makeParent (f : Path → OsError → ε) (p : Path) (s : Site) :
    s.files.Evolves (fun _ _ => False) ((makeParent f p).on s).2.files :=
  within_makeParent f p s rfl

theorem within_writeText (f : Path → OsError → ε) {p : Path} {text : String}
    (hp : writes (p.key working) text.toUTF8) : Within working writes (writeText f p text) :=
  within_bind (within_makeParent f p) fun _ => within_write _ hp

end Within

/-! ## Written texts -/

theorem on_writeText_ok {f : Path → OsError → ε} {p : Path} {text : String} {s s' : Site} {u : Unit}
    (h : (writeText f p text).on s = (.ok u, s')) :
    s'.files.stat p = .ok (.file text.toUTF8 s.files.now) := by
  obtain ⟨⟨⟩, s₁, hparent, hwrite⟩ := on_bind_ok h
  have hframe := evolves_on_makeParent f p s
  rw [hparent] at hframe
  obtain ⟨fs, hfs, rfl⟩ := on_change_ok hwrite
  rw [← hframe.now]
  exact FileSystem.stat_write hfs

/-- How the writing ends does not depend on the text. -/
theorem fst_on_writeText_eq (f : Path → OsError → ε) (p : Path) (text other : String) (s : Site) :
    ((writeText f p text).on s).1 = ((writeText f p other).on s).1 := by
  rw [writeText, writeText, on_bind, on_bind]
  rcases (makeParent f p).on s with ⟨r, s₁⟩
  cases r with
  | error e => rfl
  | ok u =>
    have hsame := FileSystem.map_write_eq s₁.files p text.toUTF8 other.toUTF8
    simp only [on_change]
    cases hw : s₁.files.write p text.toUTF8 <;>
      cases hw' : s₁.files.write p other.toUTF8 <;> simp_all [Except.map]

/-! ## Jobs on files alone -/

def OnFiles (job : Job ε α) : Prop :=
  ∀ s s' : Site, s'.files = s.files →
    job.on s' = ((job.on s).1, { s' with files := (job.on s).2.files })

theorem onFiles_pure (a : α) : OnFiles (pure a : Job ε α) := by
  intro s s' h
  rw [on_pure, on_pure, ← h]

theorem onFiles_bind {job : Job ε α} {f : α → Job ε β} (hjob : OnFiles job)
    (hf : ∀ a, OnFiles (f a)) : OnFiles (job >>= f) := by
  intro s s' h
  rw [on_bind, on_bind, hjob s s' h]
  rcases job.on s with ⟨r, s₁⟩
  cases r with
  | error e => rfl
  | ok a => exact hf a s₁ _ rfl

theorem onFiles_change (f : OsError → ε) (action : FileSystem → Except OsError FileSystem) :
    OnFiles (change f action) := by
  intro s s' h
  rw [on_change, on_change, h]
  cases action s.files with
  | error e => simp [← h]
  | ok fs => rfl

theorem onFiles_makeDirectories (f : OsError → ε) (dir : Path) :
    OnFiles (makeDirectories f dir) := by
  intro s s' h
  rw [on_makeDirectories, on_makeDirectories, h]

theorem onFiles_writeText (f : Path → OsError → ε) (p : Path) (text : String) :
    OnFiles (writeText f p text) := by
  refine onFiles_bind ?_ fun _ => onFiles_change _ _
  rw [makeParent]
  split
  · exact onFiles_makeDirectories _ _
  · exact onFiles_pure ()

/-! ## The tally -/

def Uncounted (job : Job ε α) : Prop := ∀ s : Site, (job.on s).2.tally = s.tally

theorem uncounted_pure (a : α) : Uncounted (pure a : Job ε α) := fun _ => rfl

theorem uncounted_tell (e : Event) : Uncounted (tell e : Job ε Unit) := fun _ => rfl

theorem uncounted_files : Uncounted (files : Job ε FileSystem) := fun _ => rfl

theorem tally_on_bind (job : Job ε α) {f : α → Job ε β} (hf : ∀ a, Uncounted (f a)) (s : Site) :
    ((job >>= f).on s).2.tally = (job.on s).2.tally := by
  rw [on_bind]
  rcases job.on s with ⟨r, s₁⟩
  cases r with
  | error e => rfl
  | ok a => exact hf a s₁

theorem uncounted_bind {job : Job ε α} {f : α → Job ε β} (hjob : Uncounted job)
    (hf : ∀ a, Uncounted (f a)) : Uncounted (job >>= f) :=
  fun s => (tally_on_bind job hf s).trans (hjob s)

theorem uncounted_adapt (f : ε' → ε) {job : Job ε' α} (h : Uncounted job) :
    Uncounted (adapt f job) := by
  intro s
  rw [on_adapt]
  exact h s

theorem uncounted_change (f : OsError → ε) (action : FileSystem → Except OsError FileSystem) :
    Uncounted (change f action) := by
  intro s
  rw [on_change]
  cases action s.files <;> rfl

theorem uncounted_makeDirectories (f : OsError → ε) (dir : Path) :
    Uncounted (makeDirectories f dir) := by
  intro s
  rw [on_makeDirectories]

end Job

namespace Tree

variable {working : Key} {writes : FileSystem.Writes}

theorem within_save {t : Tree} {p : Path} (hp : writes (p.key working) t.render.toUTF8) :
    Job.Within working writes (t.save p) := Job.within_writeText _ hp

theorem onFiles_save (t : Tree) (p : Path) : Job.OnFiles (t.save p) :=
  Job.onFiles_writeText _ p t.render

theorem evolves_on_save (t : Tree) (p : Path) (s : Site) :
    s.files.Evolves (fun k b => k = p.key s.files.working ∧ b = t.render.toUTF8)
      ((t.save p).on s).2.files := by
  have hwithin : Job.Within s.files.working
      (fun k b => k = p.key s.files.working ∧ b = t.render.toUTF8) (t.save p) :=
    within_save ⟨rfl, rfl⟩
  exact hwithin s rfl

theorem on_save_ok {t : Tree} {p : Path} {s s' : Site} {u : Unit}
    (h : (t.save p).on s = (.ok u, s')) :
    s'.files.stat p = .ok (.file t.render.toUTF8 s.files.now) := Job.on_writeText_ok h

theorem evolves_of_on_save_error {t : Tree} {p : Path} {s s' : Site} {e : TreeError}
    (h : (t.save p).on s = (.error e, s')) : s.files.Evolves (fun _ _ => False) s'.files := by
  have hparent := Job.evolves_on_makeParent TreeError.io p s
  rw [save, Job.writeText, Job.on_bind] at h
  rcases hmade : (Job.makeParent TreeError.io p).on s with ⟨made, s₁⟩
  rw [hmade] at h hparent
  cases made with
  | error cause =>
    cases h
    exact hparent
  | ok u =>
    simp only [Job.on_change] at h
    cases hwrite : s₁.files.write p t.render.toUTF8 with
    | ok fs =>
      rw [hwrite] at h
      simp at h
    | error cause =>
      simp only [hwrite, Prod.mk.injEq] at h
      exact h.2 ▸ hparent

def ofFile? (raw : ByteArray) : Option Tree := (String.fromUTF8? raw).bind parse?

def at? (fs : FileSystem) (k : Key) : Option Tree :=
  match fs.item? k with
  | some (.file raw _) => ofFile? raw
  | _ => none

theorem at?_eq_some {fs : FileSystem} {k : Key} {t : Tree} : at? fs k = some t ↔
    ∃ raw time, fs.item? k = some (.file raw time) ∧ ofFile? raw = some t := by
  rw [at?]
  split
  next raw time hitem => simp [hitem]
  next hother => simpa using fun raw time hitem => absurd hitem (hother raw time)

theorem on_load_ok {p : Path} {s s' : Site} {t : Tree} (h : (load p).on s = (.ok t, s')) :
    ∃ raw time, s.files.stat p = .ok (.file raw time) ∧ ofFile? raw = some t := by
  obtain ⟨text, s₁, hask, h⟩ := Job.on_bind_ok h
  have hparse : parse? text = some t := by
    split at h
    next found hfound => cases h; exact hfound
    next => simp at h
  rw [Job.on_ask] at hask
  cases htext : s.files.readText p with
  | error e => simp [htext] at hask
  | ok found =>
    obtain ⟨raw, time, hstat, hraw⟩ := FileSystem.readText_eq_ok.1 htext
    have hfound : found = text := by simpa [htext] using (Prod.mk.inj hask).1
    exact ⟨raw, time, hstat, by rw [ofFile?, hraw, Option.bind_some, hfound, hparse]⟩

theorem snd_on_load (p : Path) (s : Site) : ((load p).on s).2 = s := by
  rw [load, Job.on_bind, Job.on_ask]
  cases s.files.readText p with
  | error e => rfl
  | ok text =>
    simp only [mapError_ok]
    split <;> rfl

theorem on_load_of_stat_file {p : Path} {s : Site} {raw : ByteArray} {time : Nat} {t : Tree}
    (hstat : s.files.stat p = .ok (.file raw time)) (ht : ofFile? raw = some t) :
    (load p).on s = (.ok t, s) := by
  obtain ⟨text, htext, hparse⟩ := Option.bind_eq_some_iff.1 ht
  have hread := FileSystem.readText_eq_ok.2 ⟨raw, time, hstat, htext⟩
  simp only [load, Job.on_bind, Job.on_ask, hread, mapError_ok, hparse, Job.on_pure]

end Tree

end Trainyard
