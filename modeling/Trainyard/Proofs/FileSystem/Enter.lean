import Trainyard.Proofs.Path

/-!
# Directories that can be entered

A path leads through directories to one, or it does not. Directories stay, so a path
that led to one goes on leading to it; and it does so after the directory was made with
all that were missing above it.
-/

set_option autoImplicit false

namespace Trainyard.FileSystem

structure Enters (fs : FileSystem) (p : Path) : Prop where
  origin : fs.item? (p.origin fs.working) = some .directory
  passes : passage fs.item? (p.origin fs.working).reverse p.components = .ok (p.trail fs.working)

section Enters

variable {fs fs' : FileSystem} {p : Path} {name : String}

theorem trail_eq (working : Key) (p : Path) :
    p.trail working = p.components.foldl Path.climb (p.origin working).reverse := by
  rw [Path.trail, Path.origin]
  cases p.isAbsolute <;> rfl

theorem enters_iff : fs.Enters p ↔ fs.item? (p.origin fs.working) = some .directory ∧
    ∃ names, passage fs.item? (p.origin fs.working).reverse p.components = .ok names := by
  constructor
  · intro h
    exact ⟨h.origin, _, h.passes⟩
  · rintro ⟨horigin, names, hpasses⟩
    refine ⟨horigin, ?_⟩
    rw [hpasses, trail_eq, passage_ok hpasses]

theorem Enters.mono (h : fs.Enters p) (hworking : fs'.working = fs.working)
    (hdirs : ∀ k, fs.item? k = some .directory → fs'.item? k = some .directory) :
    fs'.Enters p := by
  refine ⟨?_, ?_⟩
  · rw [hworking]
    exact hdirs _ h.origin
  · rw [hworking]
    exact passage_mono hdirs h.passes

theorem item?_above {n : String} {k k' : Key} (h : fs.item? (k ++ n :: k') ≠ none) :
    fs.item? k = some .directory := by
  obtain ⟨i, hi⟩ := Option.ne_none_iff_exists'.1 h
  rw [item?_eq_map, get?, Entry.get?_append] at hi
  obtain ⟨e, he, -⟩ := Option.map_eq_some_iff.1 hi
  obtain ⟨d, hd, hbelow⟩ := Option.bind_eq_some_iff.1 he
  rw [item?_eq_map, get?, hd]
  cases d with
  | file b t => simp [Entry.get?, Entry.child?] at hbelow
  | directory es t => rfl

theorem directory_of_passage {names cs ends : List String}
    (h : passage fs.item? names cs = .ok ends) (hstart : fs.item? names.reverse = some .directory) :
    fs.item? ends.reverse = some .directory := by
  induction cs generalizing names with
  | nil => cases h; exact hstart
  | cons c cs ih =>
    rw [passage] at h
    split at h
    next => exact ih h hstart
    next =>
      split at h
      next =>
        refine ih h ?_
        cases names with
        | nil => exact hstart
        | cons n names =>
          rw [List.reverse_cons] at hstart
          have hthere : fs.item? (names.reverse ++ [n]) ≠ none := by rw [hstart]; simp
          exact item?_above hthere
      next =>
        split at h
        next => simp at h
        next =>
          split at h
          next => simp at h
          next => simp at h
          next hdir => exact ih h (by rw [List.reverse_cons]; exact hdir)

theorem Enters.directory (h : fs.Enters p) : fs.item? (p.key fs.working) = some .directory :=
  directory_of_passage h.passes (by rw [List.reverse_reverse]; exact h.origin)

theorem origin_child (h : Path.Plain name) (working : Key) (p : Path) :
    (p.child name).origin working = p.origin working := by
  rw [Path.origin, Path.origin, Path.isAbsolute_child h]

theorem passage_cons {look : Look} {n : String} (h : Path.Plain n) (k : Key) (ns : List String) :
    passage look k.reverse (n :: ns) =
      if nameLimit < n.utf8ByteSize then .error .nameTooLong
      else match look (k ++ [n]) with
        | none => .error .notFound
        | some (.file ..) => .error .notADirectory
        | some .directory => passage look (k ++ [n]).reverse ns := by
  rw [passage, if_neg h.dot, if_neg h.dots, List.reverse_reverse, List.reverse_append]
  rfl

theorem enters_child (h : Path.Plain name) : fs.Enters (p.child name) ↔
    fs.Enters p ∧ name.utf8ByteSize ≤ nameLimit ∧
      fs.item? (p.key fs.working ++ [name]) = some .directory := by
  have htrail : p.trail fs.working = (p.key fs.working).reverse := by
    rw [Path.key, List.reverse_reverse]
  rw [enters_iff, origin_child h, Path.components_child h, passage_append]
  constructor
  · rintro ⟨horigin, names, hpasses⟩
    obtain ⟨before, hbefore, hlast⟩ := bind_eq_ok.1 hpasses
    have henters : fs.Enters p := enters_iff.2 ⟨horigin, before, hbefore⟩
    rw [henters.passes] at hbefore
    cases hbefore
    rw [htrail, passage_cons h] at hlast
    split at hlast
    next => simp at hlast
    next hlong =>
      refine ⟨henters, Nat.le_of_not_lt hlong, ?_⟩
      split at hlast
      next => simp at hlast
      next => simp at hlast
      next hitem => exact hitem
  · rintro ⟨henters, hlimit, hitem⟩
    refine ⟨henters.origin, (p.key fs.working ++ [name]).reverse, ?_⟩
    rw [henters.passes]
    show passage fs.item? (p.trail fs.working) [name] = _
    rw [htrail, passage_cons h, if_neg (Nat.not_lt.2 hlimit), hitem]
    rfl

theorem passage_of_seek {look : Look} {slash : Bool} {names cs : List String} {k : Key}
    (h : seek look slash names cs = .ok (k, .directory)) :
    ∃ names', passage look names cs.reverse = .ok names' := by
  cases cs with
  | nil => exact ⟨names, rfl⟩
  | cons name before =>
    rw [List.reverse_cons, passage_append]
    rw [seek] at h
    split at h
    next => simp at h
    next names' hpassage =>
      rw [hpassage]
      show ∃ names'', passage look names' [name] = .ok names''
      rw [passage]
      split at h
      next hdot => exact ⟨names', by rw [if_pos hdot]; rfl⟩
      next hdot =>
        rw [if_neg hdot]
        split at h
        next hup => exact ⟨names'.tail, by rw [if_pos hup]; rfl⟩
        next hup =>
          rw [if_neg hup]
          split at h
          next => simp at h
          next hlong =>
            rw [if_neg hlong]
            split at h
            next => simp at h
            next =>
              split at h
              next => simp at h
              next => simp at h
            next hitem => exact ⟨name :: names', rfl⟩

theorem enters_of_view {k : Key} (h : fs.view p = .ok (k, .directory)) : fs.Enters p := by
  rw [view_eq] at h
  split at h
  next => simp at h
  next =>
    split at h
    next => simp at h
    next =>
      split at h
      next => simp at h
      next =>
        split at h
        next horigin =>
          obtain ⟨names, hpassage⟩ := passage_of_seek h
          rw [List.reverse_reverse] at hpassage
          exact enters_iff.2 ⟨horigin, names, hpassage⟩
        next => simp at h

end Enters

/-! ## Making directories -/

section Making

variable {fs made : FileSystem}

theorem ensureBelow_ok {target : FileSystem → Except OsError Target}
    {above : FileSystem → Except OsError Unit × FileSystem} {u : Unit}
    (h : fs.ensureBelow target above = (.ok u, made)) :
    ∃ before : FileSystem, before.ensure (target before) = .ok made := by
  rw [ensureBelow] at h
  split at h
  next made' hmade =>
    cases h
    exact ⟨fs, hmade⟩
  next =>
    split at h
    next => simp at h
    next before habove =>
      split at h
      next made' hmade =>
        cases h
        exact ⟨before, hmade⟩
      next => simp at h
  next => simp at h

theorem view_of_ensure {p : Path} (h : fs.ensure (do checked p; fs.locate p) = .ok made) :
    ∃ k, made.view p = .ok (k, .directory) := by
  rcases ensure_ok h with ⟨rfl, t, k, es, time, htarget, hentry⟩ | ⟨t, htarget, hmake⟩
  · obtain ⟨⟨⟩, hchecked, hlocate⟩ := bind_eq_ok.1 htarget
    have hfind : made.find p = .ok (k, .directory es time) := by
      simp [find, hchecked, hlocate, hentry, bind, Except.bind]
    refine ⟨k, ?_⟩
    rw [view, hfind]
    rfl
  · obtain ⟨⟨⟩, hchecked, hlocate⟩ := bind_eq_ok.1 htarget
    have he := evolves_makeAt (locate_ok hlocate).1 hmake
    obtain ⟨s, name, slash, rfl, hlimit, -, hputs⟩ := makeAt_ok (locate_ok hlocate).1 hmake
    obtain ⟨-, hkey⟩ := key_of_locate_child hlocate
    obtain ⟨r, hlocate'⟩ := locate_child_mono he hlocate
    obtain ⟨hr, hkey'⟩ := key_of_locate_child hlocate'
    rw [he.working, hkey] at hkey'
    -- the name now stands for the new directory
    have hmade : made.item? (r.key ++ [name]) = some .directory := by
      rw [hputs.item, hkey', if_pos rfl, Mark.item_directory]
    rw [item?_eq_map, get?, Spot.get?_key_append hr] at hmade
    obtain ⟨e, hchild, hdirectory⟩ := Option.map_eq_some_iff.1 hmade
    cases e with
    | file b t => simp at hdirectory
    | directory es time =>
      have hlook : r.look name = .ok (some (.directory es time)) := by
        rw [Spot.look, if_neg (Nat.not_lt.2 hlimit), hchild]
      have hfind : made.find p = .ok (r.key ++ [name], .directory es time) := by
        simp [find, hchecked, hlocate', Target.entry, hlook, bind, Except.bind]
      refine ⟨r.key ++ [name], ?_⟩
      rw [view, hfind]
      rfl

theorem view_of_makeDirectories {p : Path} (hne : p.isEmpty = false) {u : Unit}
    (h : fs.makeDirectories p = (.ok u, made)) : ∃ k, made.view p = .ok (k, .directory) := by
  rw [makeDirectories, if_neg (by simp [hne])] at h
  obtain ⟨before, hensure⟩ := ensureBelow_ok h
  exact view_of_ensure hensure

/-- A directory that was made with all above it can be entered. -/
theorem enters_of_makeDirectories {p : Path} (hne : p.isEmpty = false) {u : Unit}
    (h : fs.makeDirectories p = (.ok u, made)) : made.Enters p := by
  obtain ⟨k, hview⟩ := view_of_makeDirectories hne h
  exact enters_of_view hview

end Making

end Trainyard.FileSystem
