import Trainyard.Proofs.FileSystem.Reach

/-!
# What a path depends on

A walk looks at one key after the other, and what it finds there decides where it goes
and how it fails. So two file systems that agree on the keys along a path show the same
at its end, failures included.
-/

set_option autoImplicit false

namespace Trainyard

/-! ## Walks over a map -/

namespace FileSystem

abbrev Look := Key → Option Item

def passage (look : Look) : List String → List String → Except OsError (List String)
  | names, [] => .ok names
  | names, c :: cs =>
    if c = "." then passage look names cs
    else if c = ".." then passage look names.tail cs
    else if nameLimit < c.utf8ByteSize then .error .nameTooLong
    else match look (names.reverse ++ [c]) with
      | none => .error .notFound
      | some (.file ..) => .error .notADirectory
      | some .directory => passage look (c :: names) cs

def wayFrom : List String → List String → List Key
  | _, [] => []
  | names, c :: cs =>
    if c = "." then wayFrom names cs
    else if c = ".." then wayFrom names.tail cs
    else (names.reverse ++ [c]) :: wayFrom (c :: names) cs

end FileSystem

namespace Path

def origin (working : Key) (p : Path) : Key := if p.isAbsolute then [] else working

def way (working : Key) (p : Path) : List Key :=
  p.origin working :: FileSystem.wayFrom (p.origin working).reverse p.components

end Path

namespace FileSystem

section Passages

variable {look look' : Look} {names : List String}

theorem passage_append (look : Look) (names cs ds : List String) :
    passage look names (cs ++ ds) = passage look names cs >>= fun names => passage look names ds := by
  induction cs generalizing names with
  | nil => rfl
  | cons c cs ih =>
    rw [List.cons_append, passage, passage]
    split
    · exact ih names
    · split
      · exact ih names.tail
      · split
        · rfl
        · split
          · rfl
          · rfl
          · exact ih (c :: names)

theorem wayFrom_append (names cs ds : List String) :
    wayFrom names (cs ++ ds) = wayFrom names cs ++ wayFrom (cs.foldl Path.climb names) ds := by
  induction cs generalizing names with
  | nil => rfl
  | cons c cs ih =>
    rw [List.cons_append, wayFrom, wayFrom, List.foldl_cons, Path.climb]
    split
    · exact ih names
    · split
      · exact ih names.tail
      · rw [ih, List.cons_append]

theorem passage_ok {cs names' : List String} (h : passage look names cs = .ok names') :
    names' = cs.foldl Path.climb names := by
  induction cs generalizing names with
  | nil => cases h; rfl
  | cons c cs ih =>
    rw [passage] at h
    rw [List.foldl_cons, Path.climb]
    split at h
    next hdot => rw [if_pos hdot]; exact ih h
    next hdot =>
      rw [if_neg hdot]
      split at h
      next hup => rw [if_pos hup]; exact ih h
      next hup =>
        rw [if_neg hup]
        split at h
        next => simp at h
        next =>
          split at h
          next => simp at h
          next => simp at h
          next => exact ih h

theorem passage_congr {cs : List String} (h : ∀ k ∈ wayFrom names cs, look' k = look k) :
    passage look' names cs = passage look names cs := by
  induction cs generalizing names with
  | nil => rfl
  | cons c cs ih =>
    rw [wayFrom] at h
    rw [passage, passage]
    by_cases hdot : c = "."
    · rw [if_pos hdot] at h
      rw [if_pos hdot, if_pos hdot]
      exact ih h
    · rw [if_neg hdot] at h
      rw [if_neg hdot, if_neg hdot]
      by_cases hup : c = ".."
      · rw [if_pos hup] at h
        rw [if_pos hup, if_pos hup]
        exact ih h
      · rw [if_neg hup, List.forall_mem_cons] at h
        rw [if_neg hup, if_neg hup, h.1, ih h.2]

theorem passage_mono {cs names' : List String}
    (hdirs : ∀ k, look k = some .directory → look' k = some .directory)
    (h : passage look names cs = .ok names') : passage look' names cs = .ok names' := by
  induction cs generalizing names with
  | nil => exact h
  | cons c cs ih =>
    rw [passage] at h ⊢
    by_cases hdot : c = "."
    · rw [if_pos hdot] at h ⊢
      exact ih h
    · rw [if_neg hdot] at h ⊢
      by_cases hup : c = ".."
      · rw [if_pos hup] at h ⊢
        exact ih h
      · rw [if_neg hup] at h ⊢
        by_cases hlong : nameLimit < c.utf8ByteSize
        · simp [hlong] at h
        · rw [if_neg hlong] at h ⊢
          cases hlook : look (names.reverse ++ [c]) with
          | none => simp [hlook] at h
          | some item =>
            cases item with
            | file b t => simp [hlook] at h
            | directory =>
              rw [hlook] at h
              rw [hdirs _ hlook]
              exact ih h

theorem map_walk {root : Entry} {s : Spot} (hs : s.Sits root) (cs : List String) :
    (walk root s cs).map Spot.names = passage (fun k => root.item? k) s.names cs := by
  induction cs generalizing s with
  | nil => rfl
  | cons c cs ih =>
    rw [walk, passage]
    by_cases hdot : c = "."
    · rw [if_pos hdot, if_pos hdot]
      exact ih hs
    · rw [if_neg hdot, if_neg hdot]
      by_cases hup : c = ".."
      · rw [if_pos hup, if_pos hup]
        exact ih hs.up
      · rw [if_neg hup, if_neg hup, Spot.look]
        by_cases hlong : nameLimit < c.utf8ByteSize
        · rw [if_pos hlong, if_pos hlong]
          rfl
        · rw [if_neg hlong, if_neg hlong]
          have hitem := item?_key_append hs c
          rw [Spot.key] at hitem
          rw [hitem]
          cases hchild : s.here.child? c with
          | none => rfl
          | some e =>
            cases e with
            | file b t => rfl
            | directory es t => exact ih (hs.enter hchild)

theorem walk_of_passage {root : Entry} {s : Spot} (hs : s.Sits root) {cs ends : List String}
    (h : passage (fun k => root.item? k) s.names cs = .ok ends) :
    ∃ s', walk root s cs = .ok s' ∧ s'.names = ends := by
  rw [← map_walk hs] at h
  cases hwalk : walk root s cs with
  | error e =>
    rw [hwalk] at h
    cases h
  | ok s' =>
    rw [hwalk] at h
    exact ⟨s', rfl, Except.ok.inj h⟩

theorem walk_of_passage_error {root : Entry} {s : Spot} (hs : s.Sits root) {cs : List String}
    {e : OsError} (h : passage (fun k => root.item? k) s.names cs = .error e) :
    walk root s cs = .error e := by
  rw [← map_walk hs] at h
  cases hwalk : walk root s cs with
  | error e' =>
    rw [hwalk] at h
    exact congrArg _ (Except.error.inj h)
  | ok s' =>
    rw [hwalk] at h
    cases h

end Passages

/-! ## What is found at the end -/

def seek (look : Look) (slash : Bool) (names : List String) :
    List String → Except OsError (Key × Item)
  | [] => .ok (names.reverse, .directory)
  | name :: before =>
    match passage look names before.reverse with
    | .error e => .error e
    | .ok names =>
      if name = "." then .ok (names.reverse, .directory)
      else if name = ".." then .ok (names.tail.reverse, .directory)
      else if nameLimit < name.utf8ByteSize then .error .nameTooLong
      else match look (names.reverse ++ [name]) with
        | none => .error .notFound
        | some (.file b t) =>
          if slash then .error .notADirectory else .ok (names.reverse ++ [name], .file b t)
        | some .directory => .ok (names.reverse ++ [name], .directory)

def view (fs : FileSystem) (p : Path) : Except OsError (Key × Item) :=
  (fs.find p).map fun found => (found.1, found.2.item)

section Views

variable {fs fs' : FileSystem} {p : Path}

theorem map_entry_follow {s : Spot} (hs : s.Sits fs.root) (slash : Bool) (names : List String) :
    (fs.follow s slash names >>= Target.entry).map (fun found => (found.1, found.2.item)) =
      seek fs.item? slash s.names names := by
  cases names with
  | nil =>
    show Except.ok (s.key, s.here.item) = _
    rw [Entry.item_eq_directory.2 hs.directory]
    rfl
  | cons name before =>
    have hpassage : passage fs.item? s.names before.reverse =
        (walk fs.root s before.reverse).map Spot.names := (map_walk hs before.reverse).symm
    rw [follow, seek, hpassage]
    cases hwalk : walk fs.root s before.reverse with
    | error e => rfl
    | ok s' =>
      obtain ⟨hs', -⟩ := walk_ok hwalk hs
      simp only [Except.map]
      by_cases hdot : name = "."
      · rw [if_pos hdot, if_pos hdot]
        show Except.ok (s'.key, s'.here.item) = _
        rw [Entry.item_eq_directory.2 hs'.directory]
        rfl
      · rw [if_neg hdot, if_neg hdot]
        by_cases hup : name = ".."
        · rw [if_pos hup, if_pos hup]
          show Except.ok ((s'.up fs.root).key, (s'.up fs.root).here.item) = _
          rw [Entry.item_eq_directory.2 hs'.up.directory]
          rfl
        · rw [if_neg hup, if_neg hup]
          have hitem : fs.item? (s'.names.reverse ++ [name]) = (s'.here.child? name).map Entry.item :=
            item?_key_append hs' name
          rw [hitem]
          simp only [bind, Except.bind, Target.entry, Spot.look]
          by_cases hlong : nameLimit < name.utf8ByteSize
          · rw [if_pos hlong, if_pos hlong]
          · rw [if_neg hlong, if_neg hlong]
            cases s'.here.child? name with
            | none => rfl
            | some e =>
              cases e with
              | file b t => cases slash <;> rfl
              | directory es t => rfl

theorem start_eq (fs : FileSystem) (p : Path) :
    fs.start p = match fs.get? (p.origin fs.working) with
      | some (.directory es t) => .ok ⟨(p.origin fs.working).reverse, .directory es t⟩
      | _ => .error .notFound := rfl

theorem map_entry_start (fs : FileSystem) (p : Path) (slash : Bool) (names : List String) :
    ((do fs.follow (← fs.start p) slash names) >>= Target.entry).map
        (fun found => (found.1, found.2.item)) =
      match fs.item? (p.origin fs.working) with
      | some .directory => seek fs.item? slash (p.origin fs.working).reverse names
      | _ => .error .notFound := by
  rw [start_eq, item?_eq_map]
  cases hget : fs.get? (p.origin fs.working) with
  | none => rfl
  | some e =>
    cases e with
    | file b t => rfl
    | directory es t =>
      refine map_entry_follow (s := ⟨(p.origin fs.working).reverse, .directory es t⟩) ⟨?_, rfl⟩
        slash names
      rw [Spot.key, List.reverse_reverse]
      exact hget

/-- What a path shows, as a function of what keys lead to. -/
theorem view_eq (fs : FileSystem) (p : Path) :
    fs.view p =
      if p.text.toList.contains '\x00' then .error .nulInName
      else if p.isEmpty then .error .notFound
      else if pathLimit ≤ p.text.utf8ByteSize then .error .nameTooLong
      else match fs.item? (p.origin fs.working) with
        | some .directory =>
          seek fs.item? p.endsInSlash (p.origin fs.working).reverse p.components.reverse
        | _ => .error .notFound := by
  rw [view, find, checked, locate]
  split
  · rfl
  · split
    · rfl
    · split
      · rfl
      · exact map_entry_start fs p p.endsInSlash p.components.reverse

theorem seek_congr {look look' : Look} {slash : Bool} {names cs : List String}
    (h : ∀ k ∈ wayFrom names cs.reverse, look' k = look k) :
    seek look' slash names cs = seek look slash names cs := by
  cases cs with
  | nil => rfl
  | cons name before =>
    rw [List.reverse_cons, wayFrom_append, List.forall_mem_append] at h
    obtain ⟨hbefore, hlast⟩ := h
    rw [seek, seek, passage_congr hbefore]
    cases hpassage : passage look names before.reverse with
    | error e => rfl
    | ok names' =>
      obtain rfl := passage_ok hpassage
      rw [wayFrom] at hlast
      by_cases hdot : name = "."
      · simp only [if_pos hdot]
      · simp only [if_neg hdot] at hlast ⊢
        by_cases hup : name = ".."
        · simp only [if_pos hup]
        · rw [if_neg hup, List.forall_mem_cons] at hlast
          simp only [if_neg hup, hlast.1]

theorem view_congr (hworking : fs'.working = fs.working)
    (h : ∀ k ∈ p.way fs.working, fs'.item? k = fs.item? k) : fs'.view p = fs.view p := by
  rw [Path.way, List.forall_mem_cons] at h
  rw [view_eq, view_eq, hworking, h.1, seek_congr (by rw [List.reverse_reverse]; exact h.2)]

theorem read_eq (fs : FileSystem) (p : Path) : fs.read p = match fs.view p with
    | .error e => .error e
    | .ok (_, .file b _) => .ok b
    | .ok (_, .directory) => .error .isADirectory := by
  rw [read, stat, view]
  cases fs.find p with
  | error e => rfl
  | ok found =>
    obtain ⟨k, e⟩ := found
    cases e <;> rfl

theorem readText_congr (h : fs'.view p = fs.view p) : fs'.readText p = fs.readText p := by
  rw [readText, readText, read_eq, read_eq, h]

theorem modified?_congr (hworking : fs'.working = fs.working) (hview : fs'.view p = fs.view p)
    (hmark : fs.item? (p.key fs.working) ≠ none →
      fs'.mark? (p.key fs.working) = fs.mark? (p.key fs.working)) :
    fs'.modified? p = fs.modified? p := by
  rw [view, view] at hview
  rw [modified?, modified?, stat, stat]
  rcases hfind : fs.find p with e | ⟨k, e⟩
  · rcases hfind' : fs'.find p with e' | ⟨k', e'⟩
    · rfl
    · simp [hfind, hfind', Except.map] at hview
  · rcases hfind' : fs'.find p with e' | ⟨k', e'⟩
    · simp [hfind, hfind', Except.map] at hview
    · obtain ⟨rfl, hget⟩ := find_ok hfind
      obtain ⟨rfl, hget'⟩ := find_ok hfind'
      rw [hworking] at hget'
      have hmark := hmark (by simp [item?_eq_map, hget])
      rw [mark?_eq_map, mark?_eq_map, hget, hget', Option.map_some, Option.map_some,
        Option.some.injEq] at hmark
      cases e <;> cases e' <;> simp_all [Except.map, Entry.modified, Entry.mark]

end Views

end FileSystem

end Trainyard
