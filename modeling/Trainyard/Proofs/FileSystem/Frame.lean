import Trainyard.Proofs.FileSystem.Items

/-!
# What changes to a file system leave alone

Writing sets one file, and making directories sets none. Nothing ever takes an entry
away or turns a file into a directory, so a path that led to a file goes on leading
to one. `Evolves` says this of any number of changes at once, together with the keys
where files may have been written.
-/

set_option autoImplicit false

namespace Trainyard.FileSystem

/-! ## Single changes -/

section Changes

variable {fs fs' : FileSystem} {p : Path} {b : ByteArray}

structure Puts (fs fs' : FileSystem) (parent : Key) (name : String) (x : Mark) (stamps : Bool) :
    Prop where
  working : fs'.working = fs.working
  now : fs'.now = fs.now
  directory : fs.item? parent = some .directory
  free : fs.item? (parent ++ [name]) ≠ some .directory
  mark : ∀ k, fs'.mark? k = if k = parent ++ [name] then some x
    else if k = parent ∧ stamps then some (.directory fs.now) else fs.mark? k

theorem Puts.item {parent : Key} {name : String} {x : Mark} {stamps : Bool}
    (h : Puts fs fs' parent name x stamps) (k : Key) :
    fs'.item? k = if k = parent ++ [name] then some x.item else fs.item? k := by
  rw [item?_eq_map_mark?, h.mark]
  split
  · rfl
  · split
    next hk => rw [hk.1, h.directory]; rfl
    next => rw [item?_eq_map_mark?]

theorem item?_sits {s : Spot} (hs : s.Sits fs.root) : fs.item? s.key = some .directory := by
  rw [item?_eq_map, get?, hs.here, Option.map_some, Entry.item_eq_directory.2 hs.directory]

theorem puts_of_plants {f : Entry → Entry} {name : String} {x : Entry} {g : Nat → Nat}
    {stamps : Bool} (hf : Entry.Plants f name x g) (hx : x.Bare) {s : Spot} (hs : s.Sits fs.root)
    (hg : g = if stamps then fun _ => fs.now else id)
    (hfree : ∀ es t, s.here.child? name ≠ some (.directory es t)) :
    Puts fs (fs.alter f s.key) s.key name x.mark stamps := by
  have hold : ∀ o, fs.root.get? (s.key ++ [name]) = some o → o.Bare := by
    intro o ho
    rw [Spot.get?_key_append hs] at ho
    cases o with
    | file c t => exact Entry.bare_file c t
    | directory es t => exact absurd ho (hfree es t)
  have hdir := item?_sits hs
  refine ⟨rfl, rfl, hdir, fun hthere => ?_, fun k => ?_⟩
  · rw [item?_eq_map, get?, Spot.get?_key_append hs] at hthere
    obtain ⟨o, ho, hitem⟩ := Option.map_eq_some_iff.1 hthere
    cases o with
    | file c t => simp at hitem
    | directory es t => exact hfree es t ho
  · have halter := Entry.mark?_alter hf hx s.key k fs.root hdir hold
    rw [mark?, alter, halter]
    split
    · rfl
    · by_cases hk : k = s.key
      · subst hk
        obtain ⟨t, ht⟩ := item?_eq_directory.1 hdir
        have ht : fs.root.mark? s.key = some (.directory t) := ht
        cases stamps <;> simp [hg, mark?, ht, Mark.retimed]
      · simp [hk, mark?]

theorem Puts.times {parent : Key} {name : String} {x : Mark} {stamps : Bool}
    (h : Puts fs fs' parent name x stamps) {k : Key} (hk : fs.item? k = some .directory) :
    fs'.mark? k = fs.mark? k ∨ fs'.mark? k = some (.directory fs.now) := by
  have hne : k ≠ parent ++ [name] := fun heq => h.free (heq ▸ hk)
  rw [h.mark, if_neg hne]
  split
  · exact .inr rfl
  · exact .inl rfl

structure SetsFile (fs fs' : FileSystem) (k : Key) (b : ByteArray) : Prop where
  working : fs'.working = fs.working
  now : fs'.now = fs.now
  item : ∀ k', fs'.item? k' = if k' = k then some (.file b fs.now) else fs.item? k'
  times : ∀ k', fs.item? k' = some .directory →
    fs'.mark? k' = fs.mark? k' ∨ fs'.mark? k' = some (.directory fs.now)
  free : fs.item? k ≠ some .directory

theorem Puts.setsFile {parent : Key} {name : String} {stamps : Bool}
    (h : Puts fs fs' parent name (.file b fs.now) stamps) : SetsFile fs fs' (parent ++ [name]) b :=
  ⟨h.working, h.now, h.item, fun _ => h.times, h.free⟩

def Reaches (fs : FileSystem) (p : Path) : Prop :=
  checked p = .ok () ∧
    ∃ s name, fs.locate p = .ok (.child s name false) ∧ name.utf8ByteSize ≤ nameLimit

theorem look_ok {s : Spot} {name : String} {o : Option Entry} (h : s.look name = .ok o) :
    s.here.child? name = o ∧ name.utf8ByteSize ≤ nameLimit := by
  rw [Spot.look] at h
  split at h
  next => simp at h
  next hn => exact ⟨Except.ok.inj h, Nat.le_of_not_lt hn⟩

theorem key_of_locate_child {s : Spot} {name : String} {slash : Bool}
    (h : fs.locate p = .ok (.child s name slash)) :
    s.Sits fs.root ∧ p.key fs.working = s.key ++ [name] := by
  obtain ⟨hs, hnames⟩ := locate_ok h
  exact ⟨hs, by rw [Path.key, ← hnames, Target.names, List.reverse_cons, Spot.key]⟩

/-- Writing puts a file under the last name of the path; a file that is there is overwritten in
place. -/
theorem puts_of_write (h : fs.write p b = .ok fs') :
    fs.Reaches p ∧ ∃ parent name, p.key fs.working = parent ++ [name] ∧
      Puts fs fs' parent name (.file b fs.now) (fs.item? (p.key fs.working)).isNone := by
  rw [write] at h
  obtain ⟨⟨⟩, hchecked, h⟩ := bind_eq_ok.1 h
  obtain ⟨target, hlocate, h⟩ := bind_eq_ok.1 h
  cases target with
  | spot s => simp at h
  | child s name slash =>
    obtain ⟨hs, hkey⟩ := key_of_locate_child hlocate
    cases slash with
    | true => simp at h
    | false =>
      obtain ⟨there, hlook, h⟩ := bind_eq_ok.1 (by simpa using h)
      obtain ⟨hchild, hlimit⟩ := look_ok hlook
      have hthere : fs.item? (p.key fs.working) = there.map Entry.item := by
        rw [hkey, item?_eq_map, get?, Spot.get?_key_append hs, hchild]
      refine ⟨⟨hchecked, s, name, hlocate, hlimit⟩, s.key, name, hkey, ?_⟩
      rw [hthere]
      split at h
      next => simp at h
      next hfile =>
        cases h
        exact puts_of_plants (Entry.plants_put name _) (Entry.bare_file b fs.now) hs rfl
          (by simp [hchild])
      next =>
        cases h
        exact puts_of_plants (Entry.plants_add name _ fs.now) (Entry.bare_file b fs.now) hs rfl
          (by simp [hchild])

theorem write_ok (h : fs.write p b = .ok fs') :
    SetsFile fs fs' (p.key fs.working) b ∧ fs.Reaches p := by
  obtain ⟨hreach, parent, name, hkey, hputs⟩ := puts_of_write h
  rw [hkey]
  exact ⟨hputs.setsFile, hreach⟩

/-- Whether a file can be written does not depend on what is written. -/
theorem map_write_eq (fs : FileSystem) (p : Path) (b c : ByteArray) :
    (fs.write p b).map (fun _ => ()) = (fs.write p c).map fun _ => () := by
  unfold write
  cases checked p with
  | error e => rfl
  | ok u =>
    cases fs.locate p with
    | error e => rfl
    | ok target =>
      cases target with
      | spot s => rfl
      | child s name slash =>
        cases slash with
        | true => rfl
        | false =>
          simp only [bind, Except.bind, Bool.false_eq_true, if_false]
          cases s.look name with
          | error e => rfl
          | ok there =>
            cases there with
            | none => rfl
            | some e => cases e <;> rfl

/-- Moving a file onto a path always changes the directory. -/
theorem puts_of_replace (h : fs.replace p b = .ok fs') :
    fs.Reaches p ∧ ∃ parent name, p.key fs.working = parent ++ [name] ∧
      Puts fs fs' parent name (.file b fs.now) true := by
  rw [replace] at h
  split at h
  next => simp [bind, Except.bind] at h
  next hnul =>
    have hchecked : checked p = .ok () := by rw [checked, if_neg hnul]
    obtain ⟨target, hlocate, h⟩ := bind_eq_ok.1 (by simpa using h)
    cases target with
    | spot s => simp at h
    | child s name slash =>
      obtain ⟨hs, hkey⟩ := key_of_locate_child hlocate
      obtain ⟨there, hlook, h⟩ := bind_eq_ok.1 h
      obtain ⟨hchild, hlimit⟩ := look_ok hlook
      cases slash with
      | true => simp at h
      | false =>
        refine ⟨⟨hchecked, s, name, hlocate, hlimit⟩, s.key, name, hkey, ?_⟩
        simp only [Bool.false_eq_true, if_false] at h
        split at h
        next => simp at h
        next hfree =>
          cases h
          refine puts_of_plants (Entry.plants_add name _ fs.now) (Entry.bare_file b fs.now) hs rfl
            fun es t hdir => ?_
          exact hfree es t (hchild.symm.trans hdir)

theorem replace_ok (h : fs.replace p b = .ok fs') :
    SetsFile fs fs' (p.key fs.working) b ∧ fs.Reaches p := by
  obtain ⟨hreach, parent, name, hkey, hputs⟩ := puts_of_replace h
  rw [hkey]
  exact ⟨hputs.setsFile, hreach⟩

theorem find_ok {k : Key} {e : Entry} (h : fs.find p = .ok (k, e)) :
    k = p.key fs.working ∧ fs.get? k = some e := by
  obtain ⟨⟨⟩, -, h⟩ := bind_eq_ok.1 h
  obtain ⟨target, hlocate, h⟩ := bind_eq_ok.1 h
  cases target with
  | spot s =>
    obtain ⟨hs, hnames⟩ := locate_ok hlocate
    cases h
    exact ⟨by rw [Path.key, ← hnames, Target.names, Spot.key], hs.here⟩
  | child s name slash =>
    obtain ⟨hs, hkey⟩ := key_of_locate_child hlocate
    have hget := Spot.get?_key_append hs name
    obtain ⟨there, hlook, h⟩ := bind_eq_ok.1 h
    obtain ⟨hchild, -⟩ := look_ok hlook
    rw [hkey, get?]
    split at h
    next => simp at h
    next c t =>
      split at h
      next => simp at h
      next => cases h; exact ⟨rfl, hget.trans hchild⟩
    next d _ => cases h; exact ⟨rfl, hget.trans hchild⟩

end Changes

/-! ## Any number of changes -/

abbrev Writes := Key → ByteArray → Prop

/-- Files are written only as allowed and with the present time, directories are made where
nothing was or get the present time, and nothing is lost. -/
structure Evolves (writes : Writes) (fs fs' : FileSystem) : Prop where
  working : fs'.working = fs.working
  now : fs'.now = fs.now
  item : ∀ k, fs'.item? k = fs.item? k ∨
    (fs.item? k = none ∧ fs'.item? k = some .directory) ∨
    (fs.item? k ≠ some .directory ∧ ∃ b, writes k b ∧ fs'.item? k = some (.file b fs.now))
  times : ∀ k, fs.item? k = some .directory →
    fs'.mark? k = fs.mark? k ∨ fs'.mark? k = some (.directory fs.now)

namespace Evolves

variable {writes other : Writes} {fs fs' fs'' : FileSystem}

theorem refl (writes : Writes) (fs : FileSystem) : Evolves writes fs fs :=
  ⟨rfl, rfl, fun _ => .inl rfl, fun _ _ => .inl rfl⟩

theorem mono (h : Evolves writes fs fs') (hw : ∀ k b, writes k b → other k b) :
    Evolves other fs fs' := by
  refine ⟨h.working, h.now, fun k => ?_, h.times⟩
  rcases h.item k with hsame | hmade | ⟨hfree, b, hb, hset⟩
  · exact .inl hsame
  · exact .inr (.inl hmade)
  · exact .inr (.inr ⟨hfree, b, hw k b hb, hset⟩)

theorem directory (h : Evolves writes fs fs') {k : Key} (hk : fs.item? k = some .directory) :
    fs'.item? k = some .directory := by
  rcases h.item k with hsame | ⟨hnone, -⟩ | ⟨hfree, -⟩
  · exact hsame.trans hk
  · simp [hk] at hnone
  · exact absurd hk hfree

theorem trans (h : Evolves writes fs fs') (h' : Evolves writes fs' fs'') :
    Evolves writes fs fs'' := by
  refine ⟨h'.working.trans h.working, h'.now.trans h.now, fun k => ?_, fun k hk => ?_⟩
  · have hnow := h.now
    rcases h'.item k with hsame' | ⟨hnone', hmade'⟩ | ⟨hfree', b, hb, hset'⟩
    · rw [hsame']
      exact h.item k
    · rcases h.item k with hsame | ⟨-, hmade⟩ | ⟨-, b, -, hset⟩
      · exact .inr (.inl ⟨hsame ▸ hnone', hmade'⟩)
      · simp [hmade] at hnone'
      · simp [hset] at hnone'
    · refine .inr (.inr ⟨?_, b, hb, hnow ▸ hset'⟩)
      rcases h.item k with hsame | ⟨hnone, -⟩ | ⟨hfree, -⟩
      · exact hsame ▸ hfree'
      · simp [hnone]
      · exact hfree
  · rcases h'.times k (h.directory hk) with hsame' | hnow'
    · rw [hsame']
      exact h.times k hk
    · exact .inr (h.now ▸ hnow')

theorem of_setsFile {k : Key} {b : ByteArray} (h : SetsFile fs fs' k b) :
    Evolves (fun k' b' => k' = k ∧ b' = b) fs fs' := by
  refine ⟨h.working, h.now, fun k' => ?_, h.times⟩
  have hitem := h.item k'
  by_cases hk : k' = k
  · subst hk
    rw [if_pos rfl] at hitem
    exact .inr (.inr ⟨h.free, b, ⟨rfl, rfl⟩, hitem⟩)
  · rw [if_neg hk] at hitem
    exact .inl hitem

theorem file_cases (h : Evolves writes fs fs') {k : Key} {b : ByteArray} {t : Nat}
    (hk : fs'.item? k = some (.file b t)) :
    fs.item? k = some (.file b t) ∨ (writes k b ∧ t = fs.now) := by
  rcases h.item k with hsame | ⟨-, hmade⟩ | ⟨-, c, hc, hset⟩
  · exact .inl (hsame ▸ hk)
  · simp [hmade] at hk
  · rw [hset] at hk
    cases hk
    exact .inr ⟨hc, rfl⟩

theorem file_of_not_writes (h : Evolves writes fs fs') {k : Key} (hk : ∀ b, ¬ writes k b)
    {b : ByteArray} {t : Nat} (hfile : fs.item? k = some (.file b t)) :
    fs'.item? k = some (.file b t) := by
  rcases h.item k with hsame | ⟨hnone, -⟩ | ⟨-, c, hc, -⟩
  · exact hsame.trans hfile
  · simp [hfile] at hnone
  · exact absurd hc (hk c)

end Evolves

theorem mark?_stamp (fs : FileSystem) (k k' : Key) : (fs.stamp k).mark? k' =
    if k' = k then (fs.mark? k').map (Mark.retimed fun _ => fs.now) else fs.mark? k' :=
  Entry.mark?_alter_disturbed fs.now k k' fs.root

theorem item?_stamp (fs : FileSystem) (k k' : Key) : (fs.stamp k).item? k' = fs.item? k' := by
  rw [item?_eq_map_mark?, mark?_stamp, item?_eq_map_mark?]
  split
  · cases fs.mark? k' <;> simp
  · rfl

theorem evolves_stamp (writes : Writes) (fs : FileSystem) (k : Key) :
    Evolves writes fs (fs.stamp k) := by
  refine ⟨rfl, rfl, fun k' => .inl (item?_stamp fs k k'), fun k' hk' => ?_⟩
  obtain ⟨t, ht⟩ := item?_eq_directory.1 hk'
  rw [mark?_stamp, ht]
  split
  · exact .inr rfl
  · exact .inl rfl

theorem disturb_ok {fs fs' : FileSystem} {dir : Path} (h : fs.disturb dir = .ok fs') :
    ∃ k, fs' = fs.stamp k := by
  rw [disturb] at h
  obtain ⟨-, -, h⟩ := bind_eq_ok.1 h
  split at h
  · cases h
  · obtain ⟨origin, -, h⟩ := bind_eq_ok.1 h
    obtain ⟨s, -, h⟩ := bind_eq_ok.1 h
    exact ⟨s.key, (Except.ok.inj h).symm⟩

theorem disturb_of_long {fs : FileSystem} {dir : Path}
    (h : pathLimit ≤ (passing fs.working dir).text.utf8ByteSize) :
    ∃ e, fs.disturb dir = .error e := by
  rw [disturb, checked, if_pos h]
  split <;> exact ⟨_, rfl⟩

theorem item?_of_disturb {fs fs' : FileSystem} {dir : Path} (h : fs.disturb dir = .ok fs')
    (k : Key) : fs'.item? k = fs.item? k := by
  obtain ⟨key, rfl⟩ := disturb_ok h
  exact item?_stamp fs key k

theorem evolves_of_disturb (writes : Writes) {fs fs' : FileSystem} {dir : Path}
    (h : fs.disturb dir = .ok fs') : Evolves writes fs fs' := by
  obtain ⟨key, rfl⟩ := disturb_ok h
  exact evolves_stamp writes fs key

/-! ## Making directories -/

section Directories

variable {fs made : FileSystem}

theorem makeAt_ok {t : Target} (ht : t.Sits fs.root) (h : fs.makeAt t = .ok made) :
    ∃ s name slash, t = .child s name slash ∧ name.utf8ByteSize ≤ nameLimit ∧
      fs.item? (s.key ++ [name]) = none ∧
      Puts fs made s.key name (.directory fs.now) true := by
  cases t with
  | spot s => simp [makeAt] at h
  | child s name slash =>
    have hs : s.Sits fs.root := ht
    rw [makeAt] at h
    obtain ⟨there, hlook, h⟩ := bind_eq_ok.1 h
    obtain ⟨hchild, hlimit⟩ := look_ok hlook
    split at h
    next => simp at h
    next =>
      cases h
      refine ⟨s, name, slash, rfl, hlimit, ?_, ?_⟩
      · rw [item?_eq_map, get?, Spot.get?_key_append hs, hchild, Option.map_none]
      · exact puts_of_plants (Entry.plants_add name _ fs.now) (Entry.bare_empty fs.now) hs rfl
          (by simp [hchild])

theorem evolves_makeAt {target : Target} (ht : target.Sits fs.root)
    (h : fs.makeAt target = .ok made) : Evolves (fun _ _ => False) fs made := by
  obtain ⟨s, name, slash, -, -, hnone, hputs⟩ := makeAt_ok ht h
  refine ⟨hputs.working, hputs.now, fun k => ?_, fun _ => hputs.times⟩
  have hitem := hputs.item k
  by_cases hk : k = s.key ++ [name]
  · subst hk
    rw [if_pos rfl] at hitem
    exact .inr (.inl ⟨hnone, hitem⟩)
  · rw [if_neg hk] at hitem
    exact .inl hitem

theorem ensure_ok {target : Except OsError Target} (h : fs.ensure target = .ok made) :
    (made = fs ∧ ∃ t k es time, target = .ok t ∧ t.entry = .ok (k, .directory es time)) ∨
      ∃ t, target = .ok t ∧ fs.makeAt t = .ok made := by
  rw [ensure] at h
  split at h
  next e k es time hmake hentry =>
    cases h
    obtain ⟨t, htarget, hentry⟩ := bind_eq_ok.1 hentry
    exact .inl ⟨rfl, t, k, es, time, htarget, hentry⟩
  next => exact .inr (bind_eq_ok.1 h)

theorem evolves_ensure {target : Except OsError Target}
    (ht : ∀ t, target = .ok t → t.Sits fs.root) (h : fs.ensure target = .ok made) :
    Evolves (fun _ _ => False) fs made := by
  rcases ensure_ok h with ⟨rfl, -⟩ | ⟨t, htarget, hmake⟩
  · exact .refl _ made
  · exact evolves_makeAt (ht t htarget) hmake

theorem evolves_ensureBelow {target : FileSystem → Except OsError Target}
    {above : FileSystem → Except OsError Unit × FileSystem}
    (ht : ∀ fs t, target fs = .ok t → t.Sits fs.root)
    (ha : ∀ fs, Evolves (fun _ _ => False) fs (above fs).2) (fs : FileSystem) :
    Evolves (fun _ _ => False) fs (fs.ensureBelow target above).2 := by
  rw [ensureBelow]
  split
  next made hmade => exact evolves_ensure (ht fs) hmade
  next =>
    have habove := ha fs
    split
    next e fs' hfail => rw [hfail] at habove; exact habove
    next fs' hdone =>
      rw [hdone] at habove
      split
      next made hmade => exact habove.trans (evolves_ensure (ht fs') hmade)
      next => exact habove
  next => exact .refl _ fs

theorem evolves_makeAlong (p : Path) (names : List String) (fs : FileSystem) :
    Evolves (fun _ _ => False) fs (makeAlong (fun fs => fs.start p) names fs).2 := by
  induction names generalizing fs with
  | nil => exact .refl _ fs
  | cons name outer ih =>
    refine evolves_ensureBelow (fun fs t h => ?_) ih fs
    obtain ⟨s, hstart, hfollow⟩ := bind_eq_ok.1 h
    exact (follow_ok hfollow (start_ok hstart).1).1

theorem evolves_makeDirectories (p : Path) (fs : FileSystem) :
    Evolves (fun _ _ => False) fs (fs.makeDirectories p).2 := by
  rw [makeDirectories]
  split
  next => exact .refl _ fs
  next =>
    refine evolves_ensureBelow (fun fs t h => ?_) (evolves_makeAlong p p.names.tail) fs
    obtain ⟨⟨⟩, -, hlocate⟩ := bind_eq_ok.1 h
    exact (locate_ok hlocate).1

end Directories

end Trainyard.FileSystem
