import Trainyard.Proofs.FileSystem.Enter

/-!
# What a path goes on showing

Nothing is ever taken away, so a path that shows something goes on showing it. Its time is the
one it had, or the present one. A directory that is there need not be made again, and asking for
it changes nothing.
-/

set_option autoImplicit false

namespace Trainyard.FileSystem

variable {writes : Writes} {fs fs' : FileSystem} {p : Path} {k : Key}

/-! ## Directories -/

theorem seek_directory_mono {look look' : Look} {slash : Bool} {names cs : List String}
    (hdirs : ∀ k, look k = some .directory → look' k = some .directory)
    (h : seek look slash names cs = .ok (k, .directory)) :
    seek look' slash names cs = .ok (k, .directory) := by
  cases cs with
  | nil => exact h
  | cons name before =>
    rw [seek] at h ⊢
    cases hpassage : passage look names before.reverse with
    | error e => simp [hpassage] at h
    | ok ends =>
      rw [hpassage] at h
      rw [passage_mono hdirs hpassage]
      by_cases hdot : name = "."
      · simpa only [if_pos hdot] using h
      · by_cases hup : name = ".."
        · simpa only [if_neg hdot, if_pos hup] using h
        · simp only [if_neg hdot, if_neg hup] at h ⊢
          by_cases hlong : nameLimit < name.utf8ByteSize
          · simp [hlong] at h
          · simp only [if_neg hlong] at h ⊢
            cases hlook : look (ends.reverse ++ [name]) with
            | none => simp [hlook] at h
            | some item =>
              cases item with
              | file b t =>
                rw [hlook] at h
                cases slash <;> simp at h
              | directory =>
                rw [hlook] at h
                rw [hdirs _ hlook]
                exact h

theorem Evolves.view_directory (he : Evolves writes fs fs') (h : fs.view p = .ok (k, .directory)) :
    fs'.view p = .ok (k, .directory) := by
  rw [view_eq] at h ⊢
  rw [he.working]
  split at h
  next => simp at h
  next hnul =>
    rw [if_neg hnul]
    split at h
    next => simp at h
    next hempty =>
      rw [if_neg hempty]
      split at h
      next => simp at h
      next hlong =>
        rw [if_neg hlong]
        split at h
        next horigin =>
          rw [he.directory horigin]
          exact seek_directory_mono (fun _ => he.directory) h
        next => simp at h

theorem makeDirectories_of_view (h : fs.view p = .ok (k, .directory)) :
    fs.makeDirectories p = (.ok (), fs) := by
  obtain ⟨⟨k', e⟩, hfind, hshown⟩ : ∃ found, fs.find p = .ok found ∧
      (found.1, found.2.item) = (k, Item.directory) := by
    rw [view] at h
    cases hfind : fs.find p with
    | error e => simp [hfind, Except.map] at h
    | ok found => exact ⟨found, rfl, by simpa [hfind, Except.map] using h⟩
  obtain ⟨es, t, rfl⟩ : ∃ es t, e = .directory es t := by
    cases e with
    | file b t => simp at hshown
    | directory es t => exact ⟨es, t, rfl⟩
  obtain ⟨⟨⟩, hchecked, hrest⟩ := bind_eq_ok.1 hfind
  obtain ⟨target, hlocate, hentry⟩ := bind_eq_ok.1 hrest
  have htarget : (do checked p; fs.locate p) = .ok target := by
    rw [hchecked]
    exact hlocate
  -- something is there, so nothing can be made, and it is a directory, so all is well
  have hmake : ∃ cause, fs.makeAt target = .error cause := by
    cases target with
    | spot s => exact ⟨_, rfl⟩
    | child s name slash =>
      obtain ⟨there, hlook, hentry⟩ := bind_eq_ok.1 hentry
      cases there with
      | none => simp at hentry
      | some there => exact ⟨.alreadyExists, by simp [makeAt, hlook, bind, Except.bind]⟩
  obtain ⟨cause, hmake⟩ := hmake
  have hensure : fs.ensure (do checked p; fs.locate p) = .ok fs := by
    rw [htarget]
    simp [ensure, hmake, hentry, bind, Except.bind]
  rw [makeDirectories]
  split
  · rfl
  · rw [ensureBelow, hensure]

/-! ## Times -/

theorem modified?_of_view {t : Nat} (h : fs.view p = .ok (k, .directory))
    (hmark : fs.mark? (p.key fs.working) = some (.directory t)) : fs.modified? p = some t := by
  rw [view] at h
  cases hfind : fs.find p with
  | error e => simp [hfind, Except.map] at h
  | ok found =>
    obtain ⟨k', e⟩ := found
    obtain ⟨rfl, hget⟩ := find_ok hfind
    rw [mark?_eq_map, hget, Option.map_some, Option.some.injEq] at hmark
    refine modified?_eq_some.2 ⟨e, by simp [stat, hfind, Except.map], ?_⟩
    cases e with
    | file b t' => simp at hmark
    | directory es t' => simpa [Entry.modified] using hmark

/-- What a path shows keeps its time or gets the present one. -/
theorem Evolves.modified? (he : Evolves writes fs fs') {t : Nat} (h : fs.modified? p = some t) :
    ∃ t', fs'.modified? p = some t' ∧ (t' = t ∨ t' = fs.now) := by
  obtain ⟨e, hstat, rfl⟩ := modified?_eq_some.1 h
  cases e with
  | file b t =>
    obtain ⟨c, t', hfile, htime⟩ := he.stat_file_cases hstat
    exact ⟨t', modified?_eq_some.2 ⟨_, hfile, rfl⟩, htime.imp And.right And.right⟩
  | directory es t =>
    have hget := stat_ok hstat
    have hmark : fs.mark? (p.key fs.working) = some (.directory t) := by
      rw [mark?_eq_map, hget]
      rfl
    obtain ⟨k, hview⟩ : ∃ k, fs.view p = .ok (k, .directory) := by
      rw [stat] at hstat
      rw [view]
      cases hfind : fs.find p with
      | error cause => simp [hfind, Except.map] at hstat
      | ok found =>
        obtain ⟨k, d⟩ := found
        have hd : d = .directory es t := by simpa [hfind, Except.map] using hstat
        exact ⟨k, by rw [hd]; rfl⟩
    have hview' := he.view_directory hview
    have hdir : fs.item? (p.key fs.working) = some .directory := item?_eq_directory.2 ⟨t, hmark⟩
    rcases he.times (p.key fs.working) hdir with hsame | hnow
    · rw [hmark, ← he.working] at hsame
      exact ⟨t, modified?_of_view hview' hsame, .inl rfl⟩
    · rw [← he.working] at hnow
      exact ⟨fs.now, modified?_of_view hview' hnow, .inr rfl⟩

end Trainyard.FileSystem
