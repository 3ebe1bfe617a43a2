import Trainyard.Proofs.FileSystem.Frame

/-!
# Paths that go on leading to their files

A path is walked through directories, and directories stay. So a path that reached a
name before some changes reaches the same name after them, and what it finds there is
what the key of the path leads to.
-/

set_option autoImplicit false

namespace Trainyard.FileSystem

section Walks

variable {root root' : Entry}

theorem item?_key_append {s : Spot} (hs : s.Sits root) (name : String) :
    root.item? (s.key ++ [name]) = (s.here.child? name).map Entry.item := by
  rw [Entry.item?, Spot.get?_key_append hs]

theorem walk_mono
    (hdirs : ∀ k, root.item? k = some .directory → root'.item? k = some .directory)
    {s s' r : Spot} {cs : List String} (h : walk root s cs = .ok s') (hs : s.Sits root)
    (hr : r.Sits root') (hn : r.names = s.names) : ∃ r', walk root' r cs = .ok r' := by
  induction cs generalizing s r with
  | nil => exact ⟨r, rfl⟩
  | cons c cs ih =>
    rw [walk] at h ⊢
    split at h
    next hdot => rw [if_pos hdot]; exact ih h hs hr hn
    next hdot =>
      rw [if_neg hdot]
      split at h
      next hup =>
        rw [if_pos hup]
        exact ih h hs.up hr.up (congrArg List.tail hn)
      next hup =>
        rw [if_neg hup]
        split at h
        next => simp at h
        next => simp at h
        next => simp at h
        next d hfile hlook =>
          obtain ⟨hchild, hlimit⟩ := look_ok hlook
          cases d with
          | file b t => exact absurd rfl (hfile b t)
          | directory es t =>
            have hthere : root.item? (s.key ++ [c]) = some .directory := by
              simp [item?_key_append hs, hchild]
            have hkey : r.key = s.key := congrArg List.reverse hn
            have hstill := hdirs _ hthere
            rw [← hkey, item?_key_append hr] at hstill
            obtain ⟨d', hchild', hitem⟩ := Option.map_eq_some_iff.1 hstill
            cases d' with
            | file b' t' => simp at hitem
            | directory es' t' =>
              have hlook' : r.look c = .ok (some (.directory es' t')) := by
                rw [Spot.look, if_neg (Nat.not_lt.2 hlimit), hchild']
              rw [hlook']
              exact ih h (hs.enter hchild) (hr.enter hchild') (by rw [hn])

end Walks

section Paths

variable {writes : Writes} {fs fs' : FileSystem} {p : Path}

theorem start_mono (he : Evolves writes fs fs') {s : Spot} (h : fs.start p = .ok s) :
    ∃ r, fs'.start p = .ok r := by
  rw [start] at h ⊢
  rw [he.working]
  split at h
  next es t hget =>
    have hitem : fs.item? (if p.isAbsolute then [] else fs.working) = some .directory := by
      rw [item?_eq_map, hget]
      rfl
    have hstill := he.directory hitem
    obtain ⟨d, hget', hd⟩ := Option.map_eq_some_iff.1 hstill
    cases d with
    | file b t => simp at hd
    | directory es' t' => exact ⟨_, by rw [get?, hget']⟩
  next => simp at h

theorem locate_child_mono (he : Evolves writes fs fs') {s : Spot} {name : String} {slash : Bool}
    (h : fs.locate p = .ok (.child s name slash)) :
    ∃ r, fs'.locate p = .ok (.child r name slash) := by
  rw [locate] at h ⊢
  split at h
  next => simp at h
  next hempty =>
    rw [if_neg hempty]
    split at h
    next => simp at h
    next hlong =>
      rw [if_neg hlong]
      obtain ⟨s₀, hstart, hfollow⟩ := bind_eq_ok.1 h
      obtain ⟨r₀, hstart'⟩ := start_mono he hstart
      obtain ⟨hs₀, hnames⟩ := start_ok hstart
      obtain ⟨hr₀, hnames'⟩ := start_ok hstart'
      have hsame : r₀.names = s₀.names := by rw [hnames', hnames, he.working]
      rw [hstart']
      show ∃ r, fs'.follow r₀ p.endsInSlash p.components.reverse = _
      generalize p.components.reverse = cs at hfollow
      cases cs with
      | nil => simp [follow] at hfollow
      | cons last before =>
        rw [follow] at hfollow ⊢
        split at hfollow
        next => simp at hfollow
        next s₁ hwalk =>
          obtain ⟨r₁, hwalk'⟩ := walk_mono (fun k => he.directory) hwalk hs₀ hr₀ hsame
          rw [hwalk']
          split at hfollow
          next => simp at hfollow
          next hdot =>
            split at hfollow
            next => simp at hfollow
            next hup =>
              cases hfollow
              exact ⟨r₁, by simp [hdot, hup]⟩

theorem Reaches.mono (h : fs.Reaches p) (he : Evolves writes fs fs') : fs'.Reaches p := by
  obtain ⟨hchecked, s, name, hlocate, hlimit⟩ := h
  obtain ⟨r, hlocate'⟩ := locate_child_mono he hlocate
  exact ⟨hchecked, r, name, hlocate', hlimit⟩

theorem Reaches.stat_file (h : fs.Reaches p) {b : ByteArray} {t : Nat}
    (hitem : fs.item? (p.key fs.working) = some (.file b t)) : fs.stat p = .ok (.file b t) := by
  obtain ⟨hchecked, s, name, hlocate, hlimit⟩ := h
  obtain ⟨hs, hkey⟩ := key_of_locate_child hlocate
  rw [hkey, item?_eq_map, get?, Spot.get?_key_append hs] at hitem
  obtain ⟨e, hchild, he⟩ := Option.map_eq_some_iff.1 hitem
  cases e with
  | directory es u => simp at he
  | file c u =>
    cases he
    have hlook : s.look name = .ok (some (.file b t)) := by
      rw [Spot.look, if_neg (Nat.not_lt.2 hlimit), hchild]
    simp [stat, find, hchecked, hlocate, Target.entry, hlook, bind, Except.bind, Except.map]

theorem stat_ok {e : Entry} (h : fs.stat p = .ok e) :
    fs.get? (p.key fs.working) = some e := by
  rw [stat] at h
  cases hfind : fs.find p with
  | error cause => simp [hfind, Except.map] at h
  | ok found =>
    obtain ⟨k, d⟩ := found
    obtain ⟨hkey, hget⟩ := find_ok hfind
    have hd : d = e := by simpa [hfind, Except.map] using h
    rw [← hkey, hget, hd]

theorem item?_of_stat_file {b : ByteArray} {t : Nat} (h : fs.stat p = .ok (.file b t)) :
    fs.item? (p.key fs.working) = some (.file b t) := by
  rw [item?_eq_map, stat_ok h]
  rfl

theorem reaches_of_stat_file {b : ByteArray} {t : Nat} (h : fs.stat p = .ok (.file b t)) :
    fs.Reaches p := by
  rw [stat] at h
  cases hfind : fs.find p with
  | error cause => simp [hfind, Except.map] at h
  | ok found =>
    have hfile : found.2 = .file b t := by simpa [hfind, Except.map] using h
    obtain ⟨⟨⟩, hchecked, hrest⟩ := bind_eq_ok.1 hfind
    obtain ⟨target, hlocate, hentry⟩ := bind_eq_ok.1 hrest
    cases target with
    | spot s =>
      have hdir := (locate_ok hlocate).1.directory
      cases hentry
      rw [show s.here = .file b t from hfile] at hdir
      simp [Entry.isDirectory] at hdir
    | child s name slash =>
      obtain ⟨there, hlook, hentry⟩ := bind_eq_ok.1 hentry
      obtain ⟨-, hlimit⟩ := look_ok hlook
      split at hentry
      next => simp at hentry
      next =>
        split at hentry
        next => simp at hentry
        next hslash =>
          rw [Bool.not_eq_true] at hslash
          exact ⟨hchecked, s, name, hslash ▸ hlocate, hlimit⟩
      next d hnone =>
        cases hentry
        exact absurd hfile (hnone b t)

theorem read_ok {b : ByteArray} (h : fs.read p = .ok b) : ∃ t, fs.stat p = .ok (.file b t) := by
  obtain ⟨e, hstat, h⟩ := bind_eq_ok.1 h
  cases e with
  | directory es t => simp at h
  | file c t => cases h; exact ⟨t, hstat⟩

theorem read_of_stat_file {b : ByteArray} {t : Nat} (h : fs.stat p = .ok (.file b t)) :
    fs.read p = .ok b := by
  simp [read, h, bind, Except.bind]

theorem modified?_eq_some {t : Nat} : fs.modified? p = some t ↔
    ∃ e, fs.stat p = .ok e ∧ e.modified = t := by
  rw [modified?]
  cases fs.stat p <;> simp

theorem readText_eq_ok {text : String} : fs.readText p = .ok text ↔
    ∃ b t, fs.stat p = .ok (.file b t) ∧ String.fromUTF8? b = some text := by
  constructor
  · intro h
    obtain ⟨b, hread, h⟩ := bind_eq_ok.1 h
    obtain ⟨t, hstat⟩ := read_ok hread
    refine ⟨b, t, hstat, ?_⟩
    split at h
    next found hfound => cases h; exact hfound
    next => simp at h
  · rintro ⟨b, t, hstat, htext⟩
    simp only [readText, read_of_stat_file hstat, bind, Except.bind, htext]

theorem Evolves.stat_file (he : Evolves writes fs fs') {b : ByteArray} {t : Nat}
    (hw : ∀ c, ¬ writes (p.key fs.working) c) (h : fs.stat p = .ok (.file b t)) :
    fs'.stat p = .ok (.file b t) := by
  refine ((reaches_of_stat_file h).mono he).stat_file ?_
  rw [he.working]
  exact he.file_of_not_writes hw (item?_of_stat_file h)

/-- A file that is found at a path stays one, with what it held or with what was written last. -/
theorem Evolves.stat_file_cases (he : Evolves writes fs fs') {b : ByteArray} {t : Nat}
    (h : fs.stat p = .ok (.file b t)) : ∃ c t', fs'.stat p = .ok (.file c t') ∧
      (c = b ∧ t' = t ∨ writes (p.key fs.working) c ∧ t' = fs.now) := by
  have hreaches := (reaches_of_stat_file h).mono he
  have hitem := item?_of_stat_file h
  rcases he.item (p.key fs.working) with hsame | ⟨hnone, -⟩ | ⟨-, c, hwrites, hset⟩
  · rw [hitem, ← he.working] at hsame
    exact ⟨b, t, hreaches.stat_file hsame, .inl ⟨rfl, rfl⟩⟩
  · simp [hitem] at hnone
  · rw [← he.working] at hset
    exact ⟨c, fs.now, hreaches.stat_file hset, .inr ⟨hwrites, rfl⟩⟩

theorem SetsFile.stat {b : ByteArray} (hset : SetsFile fs fs' (p.key fs.working) b)
    (hreach : fs.Reaches p) : fs'.stat p = .ok (.file b fs.now) := by
  refine (hreach.mono (.of_setsFile hset)).stat_file ?_
  rw [hset.item, hset.working, if_pos rfl]

theorem stat_write {b : ByteArray} (h : fs.write p b = .ok fs') :
    fs'.stat p = .ok (.file b fs.now) := (write_ok h).1.stat (write_ok h).2

theorem stat_replace {b : ByteArray} (h : fs.replace p b = .ok fs') :
    fs'.stat p = .ok (.file b fs.now) := (replace_ok h).1.stat (replace_ok h).2

end Paths

end Trainyard.FileSystem
