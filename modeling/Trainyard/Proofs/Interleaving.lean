import Mathlib.Logic.Function.Basic
import Trainyard.Proofs.Footprint

/-!
# Jobs in turns

Workers share the files and take turns: one of them does the next action of its job, then one of
them the next action of its own, in any order. While their footprints are apart, each of them goes
on as it would alone, and the files show the changes of all. So when all are done, each has the
answer it has alone, and the files are put together from what each leaves alone, whatever the
order was.
-/

set_option autoImplicit false

namespace Trainyard

/-! ## Files put together -/

namespace FileSystem

/-- The second file system is the first one with all changes of its parts. -/
structure Merged (fs : FileSystem) (parts : List FileSystem) (fs' : FileSystem) : Prop where
  working : fs'.working = fs.working
  now : fs'.now = fs.now
  changed : ∀ k, ∀ part ∈ parts, part.mark? k ≠ fs.mark? k → fs'.mark? k = part.mark? k
  unchanged : ∀ k, (∀ part ∈ parts, part.mark? k = fs.mark? k) → fs'.mark? k = fs.mark? k

namespace Merged

variable {fs fs' fs'' : FileSystem} {parts parts' : List FileSystem}

theorem same (h : Merged fs parts fs') (h' : Merged fs parts' fs'')
    (hsame : ∀ part, part ∈ parts' ↔ part ∈ parts) : Same fs' fs'' := by
  refine ⟨h'.working.trans h.working.symm, h'.now.trans h.now.symm, fun k => ?_⟩
  by_cases hall : ∀ part ∈ parts, part.mark? k = fs.mark? k
  · rw [h.unchanged k hall, h'.unchanged k fun part hpart => hall part ((hsame part).1 hpart)]
  · obtain ⟨part, hpart, hchanged⟩ : ∃ part ∈ parts, part.mark? k ≠ fs.mark? k := by
      simpa using hall
    rw [h.changed k part hpart hchanged, h'.changed k part ((hsame part).2 hpart) hchanged]

theorem mark_eq_part (h : Merged fs parts fs') {part : FileSystem} (hpart : part ∈ parts) {k : Key}
    (hothers : ∀ other ∈ parts, other.mark? k = fs.mark? k ∨ other = part) :
    fs'.mark? k = part.mark? k := by
  by_cases hchanged : part.mark? k = fs.mark? k
  · rw [hchanged]
    refine h.unchanged k fun other hother => ?_
    rcases hothers other hother with hsame | rfl
    · exact hsame
    · exact hchanged
  · exact h.changed k part hpart hchanged

theorem directory (h : Merged fs parts fs') {k : Key} (hk : fs.item? k = some .directory)
    (hparts : ∀ part ∈ parts, part.item? k = some .directory) :
    fs'.item? k = some .directory := by
  by_cases hall : ∀ part ∈ parts, part.mark? k = fs.mark? k
  · rw [item?_congr (h.unchanged k hall), hk]
  · obtain ⟨part, hpart, hchanged⟩ : ∃ part ∈ parts, part.mark? k ≠ fs.mark? k := by
      simpa using hall
    rw [item?_congr (h.changed k part hpart hchanged), hparts part hpart]

end Merged

/-! ## Work side by side -/

variable {ι : Type} {F : ι → Footprint} {start fs fs' part : FileSystem} {parts : ι → FileSystem}

/-- Pieces of work from one start, each of which has come as far as its part, and the files with
all that was done. -/
structure Crew (F : ι → Footprint) (start : FileSystem) (parts : ι → FileSystem)
    (fs : FileSystem) : Prop where
  grows : Grows start fs
  own : ∀ i, Alike (F i) start (parts i) start (parts i)
  beside : ∀ i, Beside (F i) (parts i) fs
  changed : ∀ i k, (parts i).mark? k ≠ start.mark? k → fs.mark? k = (parts i).mark? k
  unchanged : ∀ k, (∀ i, (parts i).mark? k = start.mark? k) → fs.mark? k = start.mark? k

theorem Crew.refl (h : ∀ i, (F i).Ready fs) : Crew F fs (fun _ => fs) fs :=
  ⟨.refl fs, fun i => .refl (F i) fs fs, fun i => .refl (h i), fun _ _ hne => absurd rfl hne,
    fun _ _ => rfl⟩

/-- Where two pieces of work that are apart both changed something, they left the same there. -/
theorem Crew.eq_of_allows (h : Crew F start parts fs) {i j : ι} (hij : Apart start (F i) (F j))
    (hji : Apart start (F j) (F i)) (hgrows : Grows start part) {k : Key} {m : Mark}
    (hm : (F j).Allows start.now k m) (hset : part.mark? k = some m)
    (hne : (parts i).mark? k ≠ start.mark? k) : (parts i).mark? k = some m := by
  rcases (h.own i).mark k with ⟨hsame, -⟩ | ⟨m', hm', hset', -⟩
  · exact absurd hsame hne
  · rcases hm with ⟨hown, b, rfl⟩ | ⟨hdirs, rfl⟩
    · -- no file is put where there was a directory
      have hdir := hgrows.directory (hji k (.inl hown) (hm'.imp (·.1) (·.1)))
      rw [item?_of_mark? hset] at hdir
      simp at hdir
    · rcases hm' with ⟨hown', b, rfl⟩ | ⟨-, rfl⟩
      · have hdir := (h.own i).grows.directory (hij k (.inl hown') (.inr hdirs))
        rw [item?_of_mark? hset'] at hdir
        simp at hdir
      · exact hset'

theorem Crew.step [DecidableEq ι] (h : Crew F start parts fs)
    (hapart : ∀ i j, i ≠ j → Apart start (F i) (F j)) {j : ι}
    (ha : Alike (F j) (parts j) part fs fs') :
    Crew F start (Function.update parts j part) fs' := by
  have hown := (h.own j).trans ha.left
  refine ⟨h.grows.trans ((h.beside j).grows_right ha), ?_, ?_, ?_, fun k hall => ?_⟩
  · exact (Function.forall_update_iff parts fun i part => Alike (F i) start part start part).2
      ⟨hown, fun i _ => h.own i⟩
  · refine (Function.forall_update_iff parts fun i part => Beside (F i) part fs').2
      ⟨(h.beside j).alike ha, fun i hi => ?_⟩
    exact (h.beside i).step (h.beside j) ha (h.own i).grows (hapart i j hi) (hapart j i hi.symm)
  · refine (Function.forall_update_iff parts fun _ part =>
      ∀ k, part.mark? k ≠ start.mark? k → fs'.mark? k = part.mark? k).2
      ⟨fun k hne => ?_, fun i hi k hne => ?_⟩
    · rcases ha.mark k with ⟨hsame, hsame'⟩ | ⟨m, -, hset, hset'⟩
      · rw [hsame] at hne ⊢
        rw [hsame', h.changed j k hne]
      · rw [hset, hset']
    · rcases ha.mark k with ⟨-, hsame'⟩ | ⟨m, hm, hset, hset'⟩
      · rw [hsame', h.changed i k hne]
      · rw [(h.own j).grows.now] at hm
        rw [hset', h.eq_of_allows (hapart i j hi) (hapart j i hi.symm) hown.grows hm hset hne]
  · obtain ⟨hself, hothers⟩ :=
      (Function.forall_update_iff parts fun _ part => part.mark? k = start.mark? k).1 hall
    rcases ha.mark k with ⟨hsame, hsame'⟩ | ⟨m, -, hset, hset'⟩
    · rw [hsame']
      refine h.unchanged k fun i => ?_
      by_cases hi : i = j
      · rw [hi, ← hsame, hself]
      · exact hothers i hi
    · rw [hset', ← hset, hself]

theorem Crew.merged (h : Crew F start parts fs) {all : List ι} (hall : ∀ i, i ∈ all) :
    Merged start (all.map parts) fs := by
  refine ⟨h.grows.working, h.grows.now, fun k part hpart hne => ?_, fun k hsame => ?_⟩
  · obtain ⟨i, -, rfl⟩ := List.mem_map.1 hpart
    exact h.changed i k hne
  · exact h.unchanged k fun i => hsame _ (List.mem_map_of_mem (hall i))

end FileSystem

/-! ## Turns -/

namespace Job

variable {ε α ι : Type} [DecidableEq ι]

def turn : Job ε α → Site → Job ε α × Site
  | done result, s => (done result, s)
  | act action next, s => (next (action s).1, (action s).2)

def interleave : List ι → (ι → Job ε α) → Site → (ι → Job ε α) × Site
  | [], jobs, s => (jobs, s)
  | i :: turns, jobs, s =>
    interleave turns (Function.update jobs i ((jobs i).turn s).1) ((jobs i).turn s).2

theorem Follows.turn {F : Footprint} {job : Job ε α} {x : Except ε α} {fs fs' : FileSystem}
    {s : Site} (h : job.Follows F x fs' fs) (hb : FileSystem.Beside F fs s.files) :
    ∃ fs₁, FileSystem.Alike F fs fs₁ s.files (job.turn s).2.files ∧
      (job.turn s).1.Follows F x fs' fs₁ := by
  cases job with
  | done result => exact ⟨fs, .refl F _ _, h⟩
  | act action next => exact h s hb

section Crew

variable {F : ι → Footprint} {start : FileSystem} {parts ends : ι → FileSystem}
  {jobs : ι → Job ε α} {answers : ι → Except ε α} {s : Site}

/-- Whatever turns they take, all go on as they would alone. -/
theorem crew_interleave (hapart : ∀ i j, i ≠ j → FileSystem.Apart start (F i) (F j))
    (turns : List ι) (hcrew : FileSystem.Crew F start parts s.files)
    (hfollows : ∀ i, (jobs i).Follows (F i) (answers i) (ends i) (parts i)) :
    ∃ parts', FileSystem.Crew F start parts' (interleave turns jobs s).2.files ∧
      ∀ i, ((interleave turns jobs s).1 i).Follows (F i) (answers i) (ends i) (parts' i) := by
  induction turns generalizing jobs parts s with
  | nil => exact ⟨parts, hcrew, hfollows⟩
  | cons j turns ih =>
    obtain ⟨part, halike, hnext⟩ := (hfollows j).turn (hcrew.beside j)
    refine ih (hcrew.step hapart halike) fun i => ?_
    by_cases hi : i = j
    · subst hi
      rw [Function.update_self, Function.update_self]
      exact hnext
    · rw [Function.update_of_ne hi, Function.update_of_ne hi]
      exact hfollows i

/-- When all are done, each has answered as it does alone, and all files are put together from
what each leaves alone. -/
theorem crew_of_interleave_done {s₀ : Site}
    (hapart : ∀ i j, i ≠ j → FileSystem.Apart s₀.files (F i) (F j))
    (hready : ∀ i, (F i).Ready s₀.files) (hsteady : ∀ i, Steady (F i) (jobs i) s₀)
    (hstart : s.files = s₀.files) {turns : List ι} {s' : Site}
    (hdone : interleave turns jobs s = (fun i => done (answers i), s')) :
    (∀ i, answers i = ((jobs i).on s₀).1) ∧
      FileSystem.Crew F s₀.files (fun i => ((jobs i).on s₀).2.files) s'.files := by
  have hcrew : FileSystem.Crew F s₀.files (fun _ => s₀.files) s.files := by
    rw [hstart]
    exact .refl hready
  obtain ⟨parts, hcrew, hfollows⟩ :=
    crew_interleave hapart turns hcrew fun i => (hsteady i).follows
  rw [hdone] at hcrew hfollows
  obtain rfl : parts = fun i => ((jobs i).on s₀).2.files := funext fun i => (hfollows i).2
  exact ⟨fun i => (hfollows i).1, hcrew⟩

end Crew

/-! ## Everyone gets done -/

theorem interleave_append (turns turns' : List ι) (jobs : ι → Job ε α) (s : Site) :
    interleave (turns ++ turns') jobs s =
      interleave turns' (interleave turns jobs s).1 (interleave turns jobs s).2 := by
  induction turns generalizing jobs s with
  | nil => rfl
  | cons i turns ih => exact ih _ _

theorem exists_interleave_alone (i : ι) (jobs : ι → Job ε α) (s : Site) :
    ∃ turns : List ι, interleave turns jobs s =
      (Function.update jobs i (done ((jobs i).on s).1), ((jobs i).on s).2) := by
  generalize hjob : jobs i = job
  induction job generalizing jobs s with
  | done result =>
    refine ⟨[], ?_⟩
    rw [on, ← hjob, Function.update_eq_self]
    rfl
  | act action next ih =>
    obtain ⟨turns, hturns⟩ := ih (action s).1
      (Function.update jobs i (next (action s).1)) (action s).2 (Function.update_self i _ jobs)
    refine ⟨i :: turns, ?_⟩
    rw [interleave, hjob]
    rw [Function.update_idem] at hturns
    exact hturns

/-- However far the workers have come, further turns get all of them done. -/
theorem exists_interleave_done {all : List ι} (hall : ∀ i, i ∈ all) (jobs : ι → Job ε α) (s : Site) :
    ∃ (turns : List ι) (answers : ι → Except ε α) (s' : Site),
      interleave turns jobs s = (fun i => done (answers i), s') := by
  have hturns (workers : List ι) :
      ∃ turns, ∀ i ∈ workers, ∃ x, (interleave turns jobs s).1 i = done x := by
    induction workers with
    | nil => exact ⟨[], by simp⟩
    | cons i workers ih =>
      obtain ⟨turns, hdone⟩ := ih
      obtain ⟨more, hmore⟩ :=
        exists_interleave_alone i (interleave turns jobs s).1 (interleave turns jobs s).2
      refine ⟨turns ++ more, fun j hj => ?_⟩
      rw [interleave_append, hmore]
      dsimp only
      by_cases hji : j = i
      · subst hji
        exact ⟨_, Function.update_self ..⟩
      · rw [Function.update_of_ne hji]
        exact hdone j ((List.mem_cons.1 hj).resolve_left hji)
  obtain ⟨turns, hdone⟩ := hturns all
  choose answers hanswers using fun i => hdone i (hall i)
  exact ⟨turns, answers, _, Prod.ext (funext hanswers) rfl⟩

end Job

end Trainyard
