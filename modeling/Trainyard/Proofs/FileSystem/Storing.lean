import Trainyard.Proofs.FileSystem.Below
import Trainyard.Proofs.FileSystem.Lasting
import Trainyard.Proofs.Parent

/-!
# Finding nothing, and putting a file there

Below a directory that can be entered, names that meet no file lead to something, or to
nothing that is there yet. In the second case the answer is that nothing was found, and a file
can be put there after the directories above it were made. The directory it goes to is the
parent of its path, which may be spelled unlike the directory the names start from.
-/

set_option autoImplicit false

namespace Trainyard.FileSystem

/-! ## Paths that are not refused -/

section Refusal

variable {fs : FileSystem} {p dir : Path}

theorem refusal_eq_none {nul : OsError} (hnul : '\x00' ∉ p.text.toList)
    (hshort : p.text.utf8ByteSize < pathLimit) : refusal nul p = none := by
  rw [refusal, if_neg (by simpa using hnul), if_neg (Nat.not_le.2 hshort)]

theorem utf8ByteSize_le_passing (dir : Path) (working : Key) :
    dir.text.utf8ByteSize + 10 ≤ (passing working dir).text.utf8ByteSize := by
  have hname : passingName.utf8ByteSize = 10 := by decide
  have hplain : Path.Plain passingName := ⟨by decide, by decide, by decide, by decide⟩
  calc dir.text.utf8ByteSize + 10
    _ ≤ (dir.absolute working).text.utf8ByteSize + passingName.utf8ByteSize := by
      rw [hname]
      exact Nat.add_le_add_right (Path.utf8ByteSize_le_absolute dir working) 10
    _ ≤ (passing working dir).text.utf8ByteSize := Path.utf8ByteSize_le_child hplain _

theorem seek_of_passage {look : Look} {names cs ends : List String}
    (h : passage look names cs.reverse = .ok ends) (slash : Bool) :
    seek look slash names cs = .ok (ends.reverse, .directory) := by
  cases cs with
  | nil =>
    cases h
    rfl
  | cons name before =>
    rw [List.reverse_cons, passage_append] at h
    obtain ⟨ends', hbefore, hlast⟩ := bind_eq_ok.1 h
    rw [seek, hbefore]
    rw [passage] at hlast
    dsimp only
    split at hlast
    next hdot =>
      cases hlast
      rw [if_pos hdot]
    next hdot =>
      rw [if_neg hdot]
      split at hlast
      next hup =>
        cases hlast
        rw [if_pos hup]
      next hup =>
        rw [if_neg hup]
        split at hlast
        next => simp at hlast
        next hlong =>
          rw [if_neg hlong]
          split at hlast
          next => simp at hlast
          next => simp at hlast
          next hitem =>
            cases hlast
            rw [List.reverse_cons]

theorem Enters.view (h : fs.Enters p) (hempty : p.isEmpty = false)
    (hnul : '\x00' ∉ p.text.toList) (hshort : p.text.utf8ByteSize < pathLimit) :
    ∃ k, fs.view p = .ok (k, .directory) := by
  rw [view_eq, if_neg (by simpa using hnul), if_neg (by simp [hempty]),
    if_neg (Nat.not_le.2 hshort), h.origin]
  have hpasses := h.passes
  rw [← List.reverse_reverse p.components] at hpasses
  exact ⟨_, seek_of_passage hpasses _⟩

theorem Enters.respelled (h : fs.Enters p) (habsolute : dir.isAbsolute = p.isAbsolute)
    (hnames : dir.components.filter (· ≠ ".") = p.components.filter (· ≠ ".")) :
    fs.Enters dir := by
  have horigin : dir.origin fs.working = p.origin fs.working := by
    rw [Path.origin, Path.origin, habsolute]
  refine enters_iff.2 ⟨?_, p.trail fs.working, ?_⟩
  · rw [horigin]
    exact h.origin
  · rw [horigin, ← passage_filter, hnames, passage_filter]
    exact h.passes

theorem utf8ByteSize_le_of_start {s t : String} (h : s.toList <+: t.toList) :
    s.utf8ByteSize ≤ t.utf8ByteSize := by
  obtain ⟨rest, hrest⟩ := h
  have heq : t = s ++ String.ofList rest := by
    rw [← String.toList_inj, String.toList_append, String.toList_ofList, hrest]
  rw [heq, String.utf8ByteSize_append]
  exact Nat.le_add_right _ _

theorem makeDirectories_parent_child {name : String} (h : fs.Enters p) (hname : Path.Plain name)
    (hnul : '\x00' ∉ (p.child name).text.toList)
    (hshort : (p.child name).text.utf8ByteSize < pathLimit) :
    ∃ dir, (p.child name).parent? = some dir ∧ fs.makeDirectories dir = (.ok (), fs) := by
  obtain ⟨dir, hparent, hheads, hnames⟩ := Path.heads_child hname p
  refine ⟨dir, hparent, ?_⟩
  cases hempty : dir.isEmpty with
  | true => rw [makeDirectories, if_pos hempty]
  | false =>
    have henters := h.respelled (hheads.absolute.trans (Path.isAbsolute_child hname p)) hnames
    obtain ⟨k, hview⟩ := henters.view hempty (fun hmem => hnul (hheads.short.subset hmem))
      (Nat.lt_of_le_of_lt (utf8ByteSize_le_of_start hheads.short) hshort)
    exact makeDirectories_of_view hview

end Refusal

/-! ## Names that meet no file -/

section Free

variable {fs : FileSystem} {k : Key} {names : List String}

theorem clearing_of_free {look : Look} (h : Free look k names)
    (hlimits : ∀ n ∈ names, n.utf8ByteSize ≤ nameLimit) : (clearing look k names).1 = .ok () := by
  induction names generalizing k with
  | nil => rfl
  | cons n ns ih =>
    obtain ⟨hfirst, hrest⟩ := free_cons.1 h
    rw [List.forall_mem_cons] at hlimits
    rw [clearing, if_neg (Nat.not_lt.2 hlimits.1), if_neg (by simp [hfirst])]
    exact ih hrest hlimits.2

theorem notFound_of_free {look : Look} (hplain : ∀ n ∈ names, Path.Plain n)
    (h : Free look k names) (hlimits : ∀ n ∈ names, n.utf8ByteSize ≤ nameLimit) {e : OsError}
    (hp : passage look k.reverse names = .error e) : e = .notFound := by
  induction names generalizing k with
  | nil => simp [passage] at hp
  | cons n ns ih =>
    obtain ⟨hfirst, hrest⟩ := free_cons.1 h
    rw [List.forall_mem_cons] at hplain hlimits
    rw [passage_cons hplain.1, if_neg (Nat.not_lt.2 hlimits.1)] at hp
    split at hp
    next =>
      cases hp
      rfl
    next hfile => simp [hfile, blocks] at hfirst
    next => exact ih hplain.2 hrest hlimits.2 hp

structure Takes (fs : FileSystem) (base : Path) (front : List String) (last : String) : Prop where
  enters : fs.Enters base
  plain : ∀ n ∈ front, Path.Plain n
  lastPlain : Path.Plain last
  limits : ∀ n ∈ front, n.utf8ByteSize ≤ nameLimit
  lastLimit : last.utf8ByteSize ≤ nameLimit
  nul : '\x00' ∉ (base.descend (front ++ [last])).text.toList
  short : (base.descend (front ++ [last])).text.utf8ByteSize < pathLimit
  free : Free fs.item? (base.key fs.working) front

variable {base : Path} {front : List String} {last : String}

theorem Takes.read_of_item (h : fs.Takes base front last) {b : ByteArray} {t : Nat}
    (hitem : fs.item? (base.key fs.working ++ (front ++ [last])) = some (.file b t)) :
    fs.read (base.descend (front ++ [last])) = .ok b := by
  have hplain : ∀ n ∈ front ++ [last], Path.Plain n := by
    simpa [or_imp, forall_and] using ⟨h.plain, h.lastPlain⟩
  have hlimits : ∀ n ∈ front ++ [last], n.utf8ByteSize ≤ nameLimit := by
    simpa [or_imp, forall_and] using ⟨h.limits, h.lastLimit⟩
  exact (read_descend h.enters hplain (by simp)).2
    ⟨refusal_eq_none h.nul h.short, hlimits, t, hitem⟩

theorem Takes.read_eq_notFound (h : fs.Takes base front last)
    (hnone : fs.item? (base.key fs.working ++ (front ++ [last])) = none) :
    fs.read (base.descend (front ++ [last])) = .error .notFound := by
  obtain ⟨hchecked, hleads⟩ := locate_descend h.enters h.plain h.lastPlain
    (show refusal .nulInName _ = none from refusal_eq_none h.nul h.short)
  have hfind : fs.find (base.descend (front ++ [last])) = .error .notFound := by
    cases hp : passage fs.item? (base.key fs.working).reverse front with
    | error e =>
      rw [Leads, hp] at hleads
      rw [find, hchecked, hleads, notFound_of_free h.plain h.free h.limits hp]
      rfl
    | ok ends =>
      rw [Leads, hp] at hleads
      obtain ⟨s, hs, hkey, hlocate⟩ := hleads
      have hlook : s.look last = .ok none := by
        rw [← List.append_assoc, ← hkey, item?_eq_map, get?, Spot.get?_key_append hs,
          Option.map_eq_none_iff] at hnone
        rw [Spot.look, if_neg (Nat.not_lt.2 h.lastLimit), hnone]
      rw [find, hchecked, hlocate]
      simp [Target.entry, hlook, bind, Except.bind]
  simp [read, stat, hfind, Except.map, bind, Except.bind]

structure Stores (fs fs' : FileSystem) (base : Key) (front : List String) (last : String)
    (b : ByteArray) : Prop where
  working : fs'.working = fs.working
  put : fs'.item? (base ++ (front ++ [last])) = some (.file b fs.now)
  other : ∀ k, k ≠ base ++ (front ++ [last]) → fs'.item? k = fs.item? k ∨
    fs.item? k = none ∧ fs'.item? k = some .directory ∧ ∃ below, below <+: front ∧ k = base ++ below

section Stores

variable {fs' : FileSystem} {top k : Key} {b c : ByteArray} {t : Nat} {i : Item}

theorem Stores.item_of_ne (h : Stores fs fs' top front last b) (hne : k ≠ top ++ (front ++ [last]))
    (hitem : fs.item? k = some i) : fs'.item? k = some i := by
  rcases h.other k hne with hsame | ⟨hnone, -⟩
  · rw [hsame, hitem]
  · rw [hitem] at hnone
    cases hnone

theorem Stores.file_of_ne (h : Stores fs fs' top front last b) (hne : k ≠ top ++ (front ++ [last]))
    (hfile : fs'.item? k = some (.file c t)) : fs.item? k = some (.file c t) := by
  rcases h.other k hne with hsame | ⟨-, hdir, -⟩
  · rw [← hsame, hfile]
  · rw [hdir] at hfile
    cases hfile

end Stores

theorem Takes.makeDirectories_parent (h : fs.Takes base front last) :
    ∃ dir made, (base.descend (front ++ [last])).parent? = some dir ∧
      fs.makeDirectories dir = (.ok (), made) ∧ made.Enters (base.descend front) ∧
      made.working = fs.working ∧ made.now = fs.now ∧
      ∀ k, made.item? k = fs.item? k ∨ fs.item? k = none ∧ made.item? k = some .directory ∧
        ∃ below, below <+: front ∧ k = base.key fs.working ++ below := by
  by_cases hfront : front = []
  · subst hfront
    obtain ⟨dir, hparent, hmade⟩ :=
      makeDirectories_parent_child h.enters h.lastPlain h.nul h.short
    exact ⟨dir, fs, hparent, hmade, h.enters, rfl, rfl, fun k => .inl rfl⟩
  · have hshort : refusal .nulInName (base.descend front) = none := by
      have hstart : (base.descend front).text.toList <+:
          (base.descend (front ++ [last])).text.toList := by
        rw [Path.descend_append]
        rcases Path.text_child h.lastPlain (base.descend front) with ⟨htext, -⟩ | ⟨htext, -⟩
        · rw [htext, String.toList_append]
          exact List.prefix_append _ _
        · rw [htext, String.append_assoc, String.toList_append]
          exact List.prefix_append _ _
      exact refusal_eq_none (fun hmem => h.nul (hstart.subset hmem))
        (Nat.lt_of_le_of_lt (utf8ByteSize_le_of_start hstart) h.short)
    obtain ⟨hanswer, hclears⟩ := makeDirectories_descend h.enters h.plain hfront hshort
    rw [clearing_of_free h.free h.limits] at hanswer
    have hmade : fs.makeDirectories (base.descend front) =
      (.ok (), (fs.makeDirectories (base.descend front)).2) := Prod.ext hanswer rfl
    refine ⟨base.descend front, _, Path.parent?_descend h.plain base h.lastPlain hfront, hmade,
      ?_, hclears.working, hclears.now, fun k => ?_⟩
    · refine enters_of_makeDirectories ?_ hmade
      obtain ⟨before, name, rfl⟩ := List.eq_nil_or_concat front |>.resolve_left hfront
      rw [List.concat_eq_append, Path.descend_append]
      exact Path.isEmpty_child (h.plain name (by simp)) _
    · rw [hclears.item]
      split
      next hk =>
        obtain ⟨below, hbelow, -, hkey⟩ := clearing_keys hk
        by_cases hthere : fs.item? k = none
        · exact .inr ⟨hthere, rfl, below, hbelow, hkey⟩
        · exact .inl (directory_of_not_blocks (hclears.clear k hk) hthere).symm
      next => exact .inl rfl

theorem Takes.disturb (h : fs.Takes base front last) {dir : Path} {made : FileSystem}
    (hparent : (base.descend (front ++ [last])).parent? = some dir)
    (henters : made.Enters (base.descend front))
    (hpassing : (passing made.working dir).text.utf8ByteSize < pathLimit) :
    made.disturb dir = .ok (made.stamp (dir.key made.working)) := by
  rw [Path.descend_append] at hparent
  obtain ⟨dir', hparent', hheads, hnames⟩ := Path.heads_child h.lastPlain (base.descend front)
  obtain rfl : dir' = dir := Option.some.inj (hparent'.symm.trans hparent)
  have hdir := henters.respelled
    (hheads.absolute.trans (Path.isAbsolute_child h.lastPlain (base.descend front))) hnames
  have hnul : '\x00' ∉ dir'.text.toList := by
    intro hmem
    have hwhole := h.nul
    rw [Path.descend_append] at hwhole
    exact hwhole (hheads.short.subset hmem)
  rw [disturb_of_enters hdir hnul, if_neg (Nat.not_le.2 hpassing)]

/-- A file is put at the end of names where no directory is. -/
theorem Takes.stores (h : fs.Takes base front last)
    (hend : fs.item? (base.key fs.working ++ (front ++ [last])) ≠ some .directory)
    (hpassing : ∀ dir, (base.descend (front ++ [last])).parent? = some dir →
      (passing fs.working dir).text.utf8ByteSize < pathLimit) (b : ByteArray) :
    ∃ dir made disturbed fs', (base.descend (front ++ [last])).parent? = some dir ∧
      fs.makeDirectories dir = (.ok (), made) ∧ made.disturb dir = .ok disturbed ∧
      disturbed.replace (base.descend (front ++ [last])) b = .ok fs' ∧
      Stores fs fs' (base.key fs.working) front last b := by
  obtain ⟨dir, made, hparent, hmade, henters, hworking, hnow, hitems⟩ := h.makeDirectories_parent
  have hdone := h.disturb hparent henters (by rw [hworking]; exact hpassing dir hparent)
  have hdisturb := evolves_of_disturb (fun _ _ => False) hdone
  have hsame := item?_of_disturb hdone
  generalize made.stamp (dir.key made.working) = disturbed at hdone hdisturb hsame
  have henters' : disturbed.Enters (base.descend front) :=
    henters.mono hdisturb.working fun _ => hdisturb.directory
  have hkey : (base.descend front).key disturbed.working ++ [last] =
      base.key fs.working ++ (front ++ [last]) := by
    rw [hdisturb.working, hworking, Path.key_descend h.plain, List.append_assoc]
  have hthere : made.item? (base.key fs.working ++ (front ++ [last])) =
      fs.item? (base.key fs.working ++ (front ++ [last])) := by
    rcases hitems (base.key fs.working ++ (front ++ [last])) with hsame | ⟨-, -, below, hbelow, heq⟩
    · exact hsame
    · rw [List.append_cancel_left_eq] at heq
      have hlength := hbelow.length_le
      rw [← heq, List.length_append, List.length_singleton] at hlength
      omega
  have hreplace := replace_child henters' h.lastPlain b
  rw [hkey, hsame, hthere, ← Path.descend_append] at hreplace
  rcases hreplace with ⟨e, hrefused, -⟩ | ⟨fs', -, hok, hputs⟩
  · rw [admits.eq_def, refusal_eq_none h.nul h.short] at hrefused
    dsimp only at hrefused
    rw [if_neg (Nat.not_lt.2 h.lastLimit)] at hrefused
    split at hrefused
    next hdirectory => exact absurd hdirectory hend
    next => simp at hrefused
    next => simp at hrefused
  · refine ⟨dir, made, disturbed, fs', hparent, hmade, hdone, hok, ?_, ?_, fun k hk => ?_⟩
    · rw [hputs.setsFile.working, hdisturb.working, hworking]
    · rw [hputs.item, hkey, if_pos rfl, hdisturb.now, hnow]
      rfl
    · rw [hputs.item, hkey, if_neg hk, hsame]
      exact hitems k

end Free

end Trainyard.FileSystem
