import Trainyard.Proofs.FileSystem.Footprint

/-!
# What making directories changes

Directories are made at keys on the way of their path, where nothing was. Nothing else
changes but the times of the directories they are made in.
-/

set_option autoImplicit false

namespace Trainyard.FileSystem

structure Opens (keys : List Key) (fs fs' : FileSystem) : Prop extends Grows fs fs' where
  marks : ∀ k, fs'.mark? k = fs.mark? k ∨ (fs'.mark? k = some (.directory fs.now) ∧
    (fs.item? k = some .directory ∨ (fs.item? k = none ∧ k ∈ keys)))

section Opens

variable {keys : List Key} {fs fs₁ fs₂ made : FileSystem} {p : Path}

theorem Opens.refl (keys : List Key) (fs : FileSystem) : Opens keys fs fs :=
  ⟨.refl fs, fun _ => .inl rfl⟩

theorem Opens.trans (h : Opens keys fs fs₁) (h' : Opens keys fs₁ fs₂) : Opens keys fs fs₂ := by
  refine ⟨h.toGrows.trans h'.toGrows, fun k => ?_⟩
  rcases h'.marks k with hsame' | ⟨hmade', hwas'⟩
  · rw [hsame']
    exact h.marks k
  · rw [h.now] at hmade'
    refine .inr ⟨hmade', ?_⟩
    rcases h.marks k with hsame | ⟨hmade, hwas⟩
    · rw [← item?_congr hsame]
      exact hwas'
    · exact hwas

theorem opens_of_puts {parent : Key} {name : String} (hnone : fs.item? (parent ++ [name]) = none)
    (h : Puts fs fs₁ parent name (.directory fs.now) true) (hkey : parent ++ [name] ∈ keys) :
    Opens keys fs fs₁ := by
  refine ⟨(clears_of_puts hnone h).grows, fun k => ?_⟩
  rw [h.mark]
  by_cases hk : k = parent ++ [name]
  · rw [if_pos hk]
    exact .inr ⟨rfl, .inr ⟨hk ▸ hnone, hk ▸ hkey⟩⟩
  · rw [if_neg hk]
    by_cases hparent : k = parent
    · rw [if_pos ⟨hparent, rfl⟩]
      exact .inr ⟨rfl, .inl (hparent ▸ h.directory)⟩
    · rw [if_neg (by simp [hparent])]
      exact .inl rfl

def Target.Among (keys : List Key) : Target → Prop
  | .spot _ => True
  | .child s name _ => s.key ++ [name] ∈ keys

theorem opens_ensure {target : Except OsError Target}
    (ht : ∀ t, target = .ok t → t.Sits fs.root ∧ t.Among keys) (h : fs.ensure target = .ok made) :
    Opens keys fs made := by
  rcases ensure_ok h with ⟨rfl, -⟩ | ⟨t, htarget, hmake⟩
  · exact .refl keys made
  · obtain ⟨hsits, hamong⟩ := ht t htarget
    obtain ⟨s, name, slash, rfl, -, hnone, hputs⟩ := makeAt_ok hsits hmake
    exact opens_of_puts hnone hputs hamong

theorem opens_ensureBelow {target : FileSystem → Except OsError Target}
    {above : FileSystem → Except OsError Unit × FileSystem} (fs : FileSystem)
    (ht : ∀ fs', fs'.working = fs.working → ∀ t, target fs' = .ok t →
      t.Sits fs'.root ∧ t.Among keys)
    (ha : Opens keys fs (above fs).2) : Opens keys fs (fs.ensureBelow target above).2 := by
  rw [ensureBelow]
  split
  next made hmade => exact opens_ensure (ht fs rfl) hmade
  next =>
    split
    next e fs' hfail => rw [hfail] at ha; exact ha
    next fs' hdone =>
      rw [hdone] at ha
      split
      next made hmade => exact ha.trans (opens_ensure (ht fs' ha.working) hmade)
      next => exact ha
  next => exact .refl keys fs

theorem among_of_follow {s : Spot} {slash : Bool} {names : List String} {t : Target}
    (hs : s.Sits fs.root) (h : fs.follow s slash names = .ok t) :
    t.Among (wayFrom s.names names.reverse) := by
  cases names with
  | nil => cases h; trivial
  | cons name before =>
    rw [follow] at h
    split at h
    next => simp at h
    next s' hwalk =>
      split at h
      next => cases h; trivial
      next hdot =>
        split at h
        next => cases h; trivial
        next hup =>
          cases h
          show s'.key ++ [name] ∈ _
          rw [List.reverse_cons, wayFrom_append, ← (walk_ok hwalk hs).2, wayFrom, if_neg hdot,
            if_neg hup]
          exact List.mem_append_right _ List.mem_cons_self

theorem Target.Among.mono {keys' : List Key} {t : Target} (h : t.Among keys)
    (hsub : ∀ k ∈ keys, k ∈ keys') : t.Among keys' := by
  cases t with
  | spot s => trivial
  | child s name slash => exact hsub _ h

theorem opens_makeAlong (p : Path) (fs : FileSystem) {names : List String}
    (hkeys : ∀ k ∈ wayFrom (p.origin fs.working).reverse names.reverse, k ∈ keys) :
    Opens keys fs (makeAlong (fun fs => fs.start p) names fs).2 := by
  induction names with
  | nil => exact .refl keys fs
  | cons name outer ih =>
    have houter : ∀ k ∈ wayFrom (p.origin fs.working).reverse outer.reverse, k ∈ keys := by
      intro k hk
      refine hkeys k ?_
      rw [List.reverse_cons, wayFrom_append]
      exact List.mem_append_left _ hk
    refine opens_ensureBelow fs (fun fs' hworking t ht => ?_) (ih houter)
    obtain ⟨s, hstart, hfollow⟩ := bind_eq_ok.1 ht
    obtain ⟨hs, hnames⟩ := start_ok hstart
    have horigin : s.names = (p.origin fs.working).reverse := by
      rw [hnames, Path.origin, hworking]
      cases p.isAbsolute <;> rfl
    have hamong := among_of_follow hs hfollow
    rw [horigin] at hamong
    exact ⟨(follow_ok hfollow hs).1, hamong.mono hkeys⟩

theorem wayFrom_filter (names cs : List String) :
    wayFrom names (cs.filter (· ≠ ".")) = wayFrom names cs := by
  induction cs generalizing names with
  | nil => rfl
  | cons c cs ih =>
    by_cases hdot : c = "."
    · rw [List.filter_cons_of_neg (by simp [hdot]), wayFrom, if_pos hdot]
      exact ih names
    · rw [List.filter_cons_of_pos (by simp [hdot]), wayFrom, wayFrom, if_neg hdot, if_neg hdot]
      simp only [ih]

/-- Directories are made on the way of their path only. -/
theorem opens_makeDirectories (p : Path) (fs : FileSystem) :
    Opens (p.way fs.working) fs (fs.makeDirectories p).2 := by
  rw [makeDirectories]
  split
  next => exact .refl _ fs
  next =>
    refine opens_ensureBelow fs (fun fs' hworking t ht => ?_) ?_
    · obtain ⟨⟨⟩, -, hlocate⟩ := bind_eq_ok.1 ht
      refine ⟨(locate_ok hlocate).1, ?_⟩
      rw [locate] at hlocate
      split at hlocate
      next => simp at hlocate
      next =>
        split at hlocate
        next => simp at hlocate
        next =>
          obtain ⟨s, hstart, hfollow⟩ := bind_eq_ok.1 hlocate
          obtain ⟨hs, hnames⟩ := start_ok hstart
          have horigin : s.names = (p.origin fs.working).reverse := by
            rw [hnames, Path.origin, hworking]
            cases p.isAbsolute <;> rfl
          have hamong := among_of_follow hs hfollow
          rw [horigin, List.reverse_reverse] at hamong
          exact hamong.mono fun k hk => List.mem_cons_of_mem _ hk
    · refine opens_makeAlong p fs fun k hk => List.mem_cons_of_mem _ ?_
      have hway : wayFrom (p.origin fs.working).reverse p.names.reverse =
          wayFrom (p.origin fs.working).reverse p.components := by
        rw [← wayFrom_filter, filter_names, wayFrom_filter]
      rw [← hway]
      cases hnames : p.names with
      | nil => rw [hnames] at hk; exact hk
      | cons name outer =>
        rw [hnames] at hk
        rw [List.reverse_cons, wayFrom_append]
        exact List.mem_append_left _ hk

theorem Opens.ne_none (h : Opens keys fs fs₁) {k : Key} (hk : fs.item? k ≠ none) :
    fs₁.item? k ≠ none := by
  rcases h.marks k with hsame | ⟨hmade, -⟩
  · rw [item?_congr hsame]
    exact hk
  · simp [item?_of_mark? hmade]

/-- Making more directories changes the time of nothing that a path names, if it was no directory
at first and the path leads past all that is made. -/
theorem Opens.modified? {keys' : List Key} (h : Opens keys fs fs₁) (h' : Opens keys' fs₁ fs₂)
    (hdir : fs.item? (p.key fs.working) ≠ some .directory)
    (hway : ∀ k ∈ p.way fs.working, k ∈ keys' → fs.item? k ≠ none) :
    fs₂.modified? p = fs₁.modified? p := by
  refine modified?_congr h'.working (view_congr h'.working fun k hk => ?_) fun hsome => ?_
  · rw [h.working] at hk
    rcases h'.marks k with hsame | ⟨hmade, hwas | ⟨hnone, hkeys⟩⟩
    · exact item?_congr hsame
    · rw [item?_of_mark? hmade, hwas, Mark.item_directory]
    · exact absurd hnone (h.ne_none (hway k hk hkeys))
  · rcases h'.marks (p.key fs₁.working) with hsame | ⟨hmade, hwas⟩
    · exact hsame
    · -- it became a directory before, at the present time
      have hwas := hwas.resolve_right fun hnone => hsome hnone.1
      rw [hmade, h.working, h.now]
      rw [h.working] at hwas
      rcases h.marks (p.key fs.working) with hsame | ⟨hnow, -⟩
      · rw [item?_congr hsame] at hwas
        exact absurd hwas hdir
      · exact hnow.symm

end Opens

end Trainyard.FileSystem
