import Mathlib.Data.List.Induction
import Trainyard.Proofs.FileSystem.Clearing

/-!
# Work below a directory

From a directory that its path leads to, names lead further down. Directories are made
along them, and in a directory that is there, whether a file can be read or written is
decided by its own name and what is there.
-/

set_option autoImplicit false

namespace Trainyard.FileSystem

def refusal (nul : OsError) (p : Path) : Option OsError :=
  if p.text.toList.contains '\x00' then some nul
  else if pathLimit ≤ p.text.utf8ByteSize then some .nameTooLong
  else none

theorem nul_of_refusal {nul : OsError} {p : Path} (h : refusal nul p = none) :
    '\x00' ∉ p.text.toList := by
  intro hmem
  rw [refusal, if_pos (by simpa using hmem)] at h
  cases h

section Paths

variable {fs fs' : FileSystem} {base p : Path} {names : List String} {name : String} {b : ByteArray}

theorem passage_filter (look : Look) (names cs : List String) :
    passage look names (cs.filter (· ≠ ".")) = passage look names cs := by
  induction cs generalizing names with
  | nil => rfl
  | cons c cs ih =>
    by_cases hdot : c = "."
    · rw [List.filter_cons_of_neg (by simp [hdot]), passage, if_pos hdot]
      exact ih names
    · rw [List.filter_cons_of_pos (by simp [hdot]), passage, passage, if_neg hdot, if_neg hdot]
      simp only [ih]

theorem filter_names (p : Path) :
    p.names.reverse.filter (· ≠ ".") = p.components.filter (· ≠ ".") := by
  have hlead : (if p.pieces.head? = some "." then ["."] else []).filter (· ≠ ".") = [] := by
    split <;> rfl
  rw [Path.names_eq, List.reverse_append, List.reverse_reverse, List.filter_append,
    List.filter_reverse, hlead, Path.components, List.filter_filter, List.filter_filter]
  refine List.filter_congr fun piece _ => ?_
  by_cases hempty : piece = "" <;> by_cases hdot : piece = "." <;> simp [Path.isBlank, hempty, hdot]

theorem start_of_directory (h : fs.item? (p.origin fs.working) = some .directory) :
    ∃ s : Spot, fs.start p = .ok s ∧ s.Sits fs.root ∧ s.names = (p.origin fs.working).reverse := by
  rw [item?_eq_map] at h
  obtain ⟨e, hget, he⟩ := Option.map_eq_some_iff.1 h
  cases e with
  | file b t => simp at he
  | directory es t =>
    have hstart : fs.start p = .ok ⟨(p.origin fs.working).reverse, .directory es t⟩ := by
      rw [start_eq, hget]
    refine ⟨_, hstart, ⟨?_, rfl⟩, rfl⟩
    rw [Spot.key, List.reverse_reverse]
    exact hget

theorem leads_of_enters (h : fs.Enters base) (hplain : ∀ n ∈ names, Path.Plain n)
    (hname : Path.Plain name) (habsolute : p.isAbsolute = base.isAbsolute) {before : List String}
    (hbefore : before.filter (· ≠ ".") = (base.components ++ names).filter (· ≠ ".")) :
    Leads fs (base.key fs.working) names name
      (do fs.follow (← fs.start p) false (name :: before.reverse)) := by
  have horigin : p.origin fs.working = base.origin fs.working := by
    rw [Path.origin, Path.origin, habsolute]
  obtain ⟨s, hstart, hs, hnames⟩ := start_of_directory (p := p) (by rw [horigin]; exact h.origin)
  have hkey : (base.key fs.working).reverse = base.trail fs.working := by
    rw [Path.key, List.reverse_reverse]
  have hpassage : (walk fs.root s before).map Spot.names =
      passage fs.item? (base.key fs.working).reverse names := by
    rw [map_walk hs, ← passage_filter, hbefore, passage_filter, passage_append, hnames, horigin,
      hkey]
    show passage fs.item? _ _ >>= _ = _
    rw [h.passes]
    rfl
  have hfollow : (do fs.follow (← fs.start p) false (name :: before.reverse)) =
      (walk fs.root s before).map fun s => .child s name false := by
    rw [hstart]
    show fs.follow s false (name :: before.reverse) = _
    rw [follow, List.reverse_reverse]
    cases walk fs.root s before with
    | error e => rfl
    | ok s' =>
      simp only [if_neg hname.dot, if_neg hname.dots]
      rfl
  rw [Leads, ← hpassage, hfollow]
  cases hwalk : walk fs.root s before with
  | error e => rfl
  | ok s' =>
    refine ⟨s', (walk_ok hwalk hs).1, ?_, rfl⟩
    have hdown : ∀ n ∈ names, n ≠ "." ∧ n ≠ ".." := fun n hn =>
      ⟨(hplain n hn).dot, (hplain n hn).dots⟩
    rw [hwalk] at hpassage
    rw [Spot.key, passage_ok hpassage.symm, Path.foldl_climb hdown, List.reverse_append,
      List.reverse_reverse, List.reverse_reverse]

theorem locate_descend (h : fs.Enters base) {names : List String}
    (hplain : ∀ n ∈ names, Path.Plain n) (hname : Path.Plain name) {nul : OsError}
    (hp : refusal nul (base.descend (names ++ [name])) = none) :
    checked (base.descend (names ++ [name])) = .ok () ∧
      Leads fs (base.key fs.working) names name (fs.locate (base.descend (names ++ [name]))) := by
  have hall : ∀ n ∈ names ++ [name], Path.Plain n := by
    simpa [or_imp, forall_and] using ⟨hplain, hname⟩
  rw [refusal] at hp
  split at hp
  next => simp at hp
  next hnul =>
    split at hp
    next => simp at hp
    next hlong =>
      refine ⟨by rw [checked, if_neg hnul], ?_⟩
      have hcomponents : (base.descend (names ++ [name])).components.reverse =
          name :: (base.components ++ names).reverse := by
        rw [Path.components_descend hall, ← List.append_assoc, List.reverse_append]
        rfl
      rw [locate, if_neg (by rw [Path.descend_append, Path.isEmpty_child hname]; simp),
        if_neg hlong, hcomponents, Path.descend_append, Path.endsInSlash_child hname,
        ← Path.descend_append]
      exact leads_of_enters h hplain hname (Path.isAbsolute_descend hall base) rfl

theorem makeAlong_descend (h : fs.Enters base) (habsolute : p.isAbsolute = base.isAbsolute)
    (hplain : ∀ n ∈ names, Path.Plain n) (hne : names ≠ []) :
    let result := makeAlong (fun fs => fs.start p) (names.reverse ++ base.names) fs
    result.1 = (clearing fs.item? (base.key fs.working) names).1 ∧
      Clears fs result.2 (clearing fs.item? (base.key fs.working) names).2 := by
  induction names using List.reverseRecOn with
  | nil => exact absurd rfl hne
  | append_singleton names name ih =>
    rw [List.forall_mem_append, List.forall_mem_singleton] at hplain
    rw [List.reverse_append, List.append_assoc]
    show (fs.ensureBelow _ _).1 = _ ∧ Clears fs (fs.ensureBelow _ _).2 _
    refine ensureBelow_of_leads hplain.1 (fun fs' hdirs hworking => ?_) (ih hplain.1)
    have hbefore : (base.names.reverse ++ names).filter (· ≠ ".") =
        (base.components ++ names).filter (· ≠ ".") := by
      rw [List.filter_append, filter_names, List.filter_append]
    have hleads := leads_of_enters (p := p) (h.mono hworking hdirs) hplain.1 hplain.2 habsolute
      hbefore
    rw [List.reverse_append, List.reverse_reverse, hworking] at hleads
    exact hleads

/-- Directories are made along names up to the first one that is too long or a file. -/
theorem makeDirectories_descend (h : fs.Enters base) (hplain : ∀ n ∈ names, Path.Plain n)
    (hne : names ≠ []) {nul : OsError} (hp : refusal nul (base.descend names) = none) :
    let result := fs.makeDirectories (base.descend names)
    result.1 = (clearing fs.item? (base.key fs.working) names).1 ∧
      Clears fs result.2 (clearing fs.item? (base.key fs.working) names).2 := by
  obtain ⟨front, last, rfl⟩ := List.eq_nil_or_concat names |>.resolve_left hne
  rw [List.concat_eq_append] at hplain hp ⊢
  have hall := hplain
  rw [List.forall_mem_append, List.forall_mem_singleton] at hplain
  have htail : (base.descend (front ++ [last])).names.tail = front.reverse ++ base.names := by
    rw [Path.names_descend hall, List.reverse_append]
    rfl
  rw [makeDirectories, htail, if_neg (by rw [Path.descend_append, Path.isEmpty_child hplain.2]; simp)]
  refine ensureBelow_of_leads hplain.1 (fun fs' hdirs hworking => ?_) fun hfront =>
    makeAlong_descend h (Path.isAbsolute_descend hall base) hplain.1 hfront
  obtain ⟨hchecked, hleads⟩ := locate_descend (h.mono hworking hdirs) hplain.1 hplain.2 hp
  rw [← hworking, hchecked]
  exact hleads

theorem refused_cases (hne : p.isEmpty = false) {nul e : OsError} (hp : refusal nul p = some e) :
    (p.text.toList.contains '\x00' ∧ e = nul) ∨
      (¬ p.text.toList.contains '\x00' ∧ e = .nameTooLong ∧
        ∀ fs : FileSystem, fs.locate p = .error .nameTooLong) := by
  rw [refusal] at hp
  split at hp
  next hnul =>
    cases hp
    exact .inl ⟨hnul, rfl⟩
  next hnul =>
    split at hp
    next hlong =>
      cases hp
      refine .inr ⟨hnul, rfl, fun fs => ?_⟩
      rw [locate, if_neg (by simp [hne]), if_pos hlong]
    next => simp at hp

theorem makeDirectories_of_refused (hne : p.isEmpty = false) {e : OsError}
    (hp : refusal .nulInName p = some e) : fs.makeDirectories p = (.error e, fs) := by
  rw [makeDirectories, if_neg (by simp [hne])]
  rcases refused_cases hne hp with ⟨hnul, rfl⟩ | ⟨hnul, rfl, hlocate⟩
  · refine ensureBelow_of_error ?_ (by simp)
    rw [checked, if_pos hnul]
    rfl
  · refine ensureBelow_of_error ?_ (by simp)
    rw [checked, if_neg hnul, hlocate]
    rfl

theorem locate_child (h : fs.Enters p) (hname : Path.Plain name) {nul : OsError}
    (hp : refusal nul (p.child name) = none) :
    checked (p.child name) = .ok () ∧ ∃ s : Spot, s.Sits fs.root ∧ s.key = p.key fs.working ∧
      fs.locate (p.child name) = .ok (.child s name false) ∧
      s.here.child? name = fs.get? (p.key fs.working ++ [name]) := by
  have hnone : ∀ n ∈ ([] : List String), Path.Plain n := by simp
  obtain ⟨hchecked, hleads⟩ := locate_descend h hnone hname hp
  obtain ⟨s, hs, hkey, hlocate⟩ : ∃ s : Spot, s.Sits fs.root ∧ s.key = p.key fs.working ++ [] ∧
    fs.locate (p.child name) = .ok (.child s name false) := hleads
  rw [List.append_nil] at hkey
  refine ⟨hchecked, s, hs, hkey, hlocate, ?_⟩
  rw [get?, ← hkey, Spot.get?_key_append hs]

def admits (nul : OsError) (p : Path) (name : String) (there : Option Item) :
    Except OsError Unit :=
  match refusal nul p with
  | some e => .error e
  | none =>
    if nameLimit < name.utf8ByteSize then .error .nameTooLong
    else match there with
      | some .directory => .error .isADirectory
      | some (.file ..) => .ok ()
      | none => .ok ()

theorem admits_cases (nul : OsError) (change : Except OsError FileSystem) (h : fs.Enters p)
    (hname : Path.Plain name)
    (hrefused : ∀ e, refusal nul (p.child name) = some e → change = .error e)
    (hchange : ∀ s, refusal nul (p.child name) = none → checked (p.child name) = .ok () →
      fs.locate (p.child name) = .ok (.child s name false) →
      ∃ f : Option Entry → FileSystem, change = (s.look name >>= fun
        | some (.directory ..) => .error .isADirectory
        | some (.file c t) => .ok (f (some (.file c t)))
        | none => .ok (f none))) :
    let there := fs.item? (p.key fs.working ++ [name])
    (∃ e, admits nul (p.child name) name there = .error e ∧ change = .error e) ∨
      ∃ fs', admits nul (p.child name) name there = .ok () ∧ change = .ok fs' := by
  intro there
  cases hp : refusal nul (p.child name) with
  | some e => exact .inl ⟨e, by rw [admits.eq_def, hp], hrefused e hp⟩
  | none =>
    obtain ⟨hchecked, s, hs, hkey, hlocate, hchild⟩ := locate_child h hname hp
    obtain ⟨f, hf⟩ := hchange s hp hchecked hlocate
    have hthere : there = (s.here.child? name).map Entry.item := by
      rw [hchild]
      rfl
    rw [admits.eq_def, hp, hthere, hf, Spot.look]
    by_cases hlong : nameLimit < name.utf8ByteSize
    · exact .inl ⟨.nameTooLong, by simp only [if_pos hlong], by rw [if_pos hlong]; rfl⟩
    · simp only [if_neg hlong]
      cases s.here.child? name with
      | none => exact .inr ⟨f none, rfl, rfl⟩
      | some e =>
        cases e with
        | file c t => exact .inr ⟨f (some (.file c t)), rfl, rfl⟩
        | directory es t => exact .inl ⟨.isADirectory, rfl, rfl⟩

theorem write_child (h : fs.Enters p) (hname : Path.Plain name) (b : ByteArray) :
    let there := fs.item? (p.key fs.working ++ [name])
    (∃ e, admits .nulInName (p.child name) name there = .error e ∧
        fs.write (p.child name) b = .error e) ∨
      ∃ fs', admits .nulInName (p.child name) name there = .ok () ∧
        fs.write (p.child name) b = .ok fs' ∧
        Puts fs fs' (p.key fs.working) name (.file b fs.now) there.isNone := by
  intro there
  have hcases := admits_cases .nulInName (fs.write (p.child name) b) h hname ?_ ?_
  · rcases hcases with hrefused | ⟨fs', hadmits, hok⟩
    · exact .inl hrefused
    · obtain ⟨-, parent, name', hsplit, hputs⟩ := puts_of_write hok
      rw [Path.key_child hname] at hsplit hputs
      obtain ⟨rfl, hlast⟩ := List.append_inj' hsplit rfl
      cases hlast
      exact .inr ⟨fs', hadmits, hok, hputs⟩
  · intro e hp
    rcases refused_cases (Path.isEmpty_child hname p) hp with ⟨hnul, rfl⟩ | ⟨hnul, rfl, hlocate⟩
    · rw [write, checked, if_pos hnul]
      rfl
    · rw [write, checked, if_neg hnul, hlocate]
      rfl
  · intro s _ hchecked hlocate
    refine ⟨fun there => there.elim (fs.add s.key name (.file b fs.now)) fun _ =>
      fs.set s.key name (.file b fs.now), ?_⟩
    rw [write, hchecked, hlocate]
    rfl

theorem replace_child (h : fs.Enters p) (hname : Path.Plain name) (b : ByteArray) :
    let there := fs.item? (p.key fs.working ++ [name])
    (∃ e, admits .invalidArgument (p.child name) name there = .error e ∧
        fs.replace (p.child name) b = .error e) ∨
      ∃ fs', admits .invalidArgument (p.child name) name there = .ok () ∧
        fs.replace (p.child name) b = .ok fs' ∧
        Puts fs fs' (p.key fs.working) name (.file b fs.now) true := by
  intro there
  have hcases := admits_cases .invalidArgument (fs.replace (p.child name) b) h hname ?_ ?_
  · rcases hcases with hrefused | ⟨fs', hadmits, hok⟩
    · exact .inl hrefused
    · obtain ⟨-, parent, name', hsplit, hputs⟩ := puts_of_replace hok
      rw [Path.key_child hname] at hsplit
      obtain ⟨rfl, hlast⟩ := List.append_inj' hsplit rfl
      cases hlast
      exact .inr ⟨fs', hadmits, hok, hputs⟩
  · intro e hp
    rcases refused_cases (Path.isEmpty_child hname p) hp with ⟨hnul, rfl⟩ | ⟨hnul, rfl, hlocate⟩
    · rw [replace, if_pos hnul]
      rfl
    · rw [replace, if_neg hnul, hlocate]
      rfl
  · intro s hp _ hlocate
    have hnul : ¬ (p.child name).text.toList.contains '\x00' := by
      intro hnul
      rw [refusal, if_pos hnul] at hp
      simp at hp
    refine ⟨fun _ => fs.add s.key name (.file b fs.now), ?_⟩
    rw [replace, if_neg hnul, hlocate]
    show (s.look name >>= _) = _
    congr 1
    funext there
    cases there with
    | none => rfl
    | some e => cases e <;> rfl

theorem limits_of_passage {look : Look} {k : Key} {ends : List String}
    (hplain : ∀ n ∈ names, Path.Plain n) (h : passage look k.reverse names = .ok ends) :
    ∀ n ∈ names, n.utf8ByteSize ≤ nameLimit := by
  induction names generalizing k with
  | nil => simp
  | cons n ns ih =>
    rw [List.forall_mem_cons] at hplain
    rw [passage_cons hplain.1] at h
    split at h
    next => simp at h
    next hlong =>
      split at h
      next => simp at h
      next => simp at h
      next => exact List.forall_mem_cons.2 ⟨Nat.le_of_not_lt hlong, ih hplain.2 h⟩

theorem passage_of_item {k : Key} (hplain : ∀ n ∈ names, Path.Plain n)
    (hlimits : ∀ n ∈ names, n.utf8ByteSize ≤ nameLimit)
    (h : fs.item? (k ++ names ++ [name]) ≠ none) :
    ∃ ends, passage fs.item? k.reverse names = .ok ends := by
  induction names generalizing k with
  | nil => exact ⟨k.reverse, rfl⟩
  | cons n ns ih =>
    rw [List.forall_mem_cons] at hplain hlimits
    have hrest : fs.item? (k ++ [n] ++ ns ++ [name]) ≠ none := by simpa using h
    have hdir : fs.item? (k ++ [n]) = some .directory := by
      obtain ⟨m, ms, hsplit⟩ : ∃ m ms, ns ++ [name] = m :: ms := by
        cases ns with
        | nil => exact ⟨name, [], rfl⟩
        | cons m ms => exact ⟨m, ms ++ [name], rfl⟩
      rw [List.append_assoc, hsplit] at hrest
      exact item?_above hrest
    rw [passage_cons hplain.1, if_neg (Nat.not_lt.2 hlimits.1), hdir]
    exact ih hplain.2 hlimits.2 hrest

/-- Only the file at its end decides what can be read along names. -/
theorem read_descend (h : fs.Enters base) (hplain : ∀ n ∈ names, Path.Plain n) (hne : names ≠ []) :
    fs.read (base.descend names) = .ok b ↔
      refusal .nulInName (base.descend names) = none ∧
        (∀ n ∈ names, n.utf8ByteSize ≤ nameLimit) ∧
        ∃ t, fs.item? (base.key fs.working ++ names) = some (.file b t) := by
  have hkey := Path.key_descend hplain base fs.working
  obtain ⟨front, last, rfl⟩ := List.eq_nil_or_concat names |>.resolve_left hne
  rw [List.concat_eq_append] at hplain hkey ⊢
  rw [List.forall_mem_append, List.forall_mem_singleton] at hplain
  constructor
  · intro hread
    obtain ⟨t, hstat⟩ := read_ok hread
    obtain ⟨hchecked, s, name, hlocate, hlimit⟩ := reaches_of_stat_file hstat
    have hp : refusal .nulInName (base.descend (front ++ [last])) = none := by
      cases hp : refusal .nulInName (base.descend (front ++ [last])) with
      | none => rfl
      | some e =>
        have hempty : (base.descend (front ++ [last])).isEmpty = false := by
          rw [Path.descend_append, Path.isEmpty_child hplain.2]
        rcases refused_cases hempty hp with ⟨hnul, -⟩ | ⟨-, -, hrefused⟩
        · rw [checked, if_pos hnul] at hchecked
          simp at hchecked
        · simp [hrefused] at hlocate
    obtain ⟨-, hleads⟩ := locate_descend h hplain.1 hplain.2 hp
    rw [Leads, hlocate] at hleads
    cases hpassage : passage fs.item? (base.key fs.working).reverse front with
    | error e => simp [hpassage] at hleads
    | ok ends =>
      rw [hpassage] at hleads
      obtain ⟨s', -, -, htarget⟩ := hleads
      cases htarget
      have hfront := limits_of_passage hplain.1 hpassage
      refine ⟨hp, ?_, t, ?_⟩
      · simpa [or_imp, forall_and] using ⟨hfront, hlimit⟩
      · rw [← hkey]
        exact item?_of_stat_file hstat
  · rintro ⟨hp, hlimits, t, hitem⟩
    rw [List.forall_mem_append, List.forall_mem_singleton] at hlimits
    obtain ⟨hchecked, hleads⟩ := locate_descend h hplain.1 hplain.2 hp
    have hthere : fs.item? (base.key fs.working ++ front ++ [last]) ≠ none := by
      rw [List.append_assoc, hitem]
      simp
    obtain ⟨ends, hpassage⟩ := passage_of_item hplain.1 hlimits.1 hthere
    rw [Leads, hpassage] at hleads
    obtain ⟨s, -, -, hlocate⟩ := hleads
    have hreaches : fs.Reaches (base.descend (front ++ [last])) :=
      ⟨hchecked, s, last, hlocate, hlimits.2⟩
    exact read_of_stat_file (hreaches.stat_file (by rw [hkey, hitem]))

/-- In a directory that can be entered a passing file can be made unless its path is too long. -/
theorem disturb_of_enters (h : fs.Enters p) (hnul : '\x00' ∉ p.text.toList) :
    fs.disturb p = if pathLimit ≤ (passing fs.working p).text.utf8ByteSize then .error .nameTooLong
      else .ok (fs.stamp (p.key fs.working)) := by
  obtain ⟨s, hstart, hs, hnames⟩ := start_of_directory h.origin
  have hpasses := h.passes
  rw [← hnames] at hpasses
  obtain ⟨s', hwalk, hends⟩ := walk_of_passage hs hpasses
  have hchecked : checked p = .ok () := by
    rw [checked, if_neg (by simpa using hnul)]
  have hkey : s'.key = p.key fs.working := by
    rw [Spot.key, hends]
    rfl
  simp only [disturb, hchecked, hstart, hwalk, hkey, bind, Except.bind]

theorem mark?_stamp_of_enters (h : fs.Enters p) (k : Key) :
    (fs.stamp (p.key fs.working)).mark? k =
      if k = p.key fs.working then some (.directory fs.now) else fs.mark? k := by
  rw [mark?_stamp]
  split
  next hk =>
    obtain ⟨t, ht⟩ := item?_eq_directory.1 h.directory
    rw [hk, ht]
    rfl
  next => rfl

end Paths

end Trainyard.FileSystem
