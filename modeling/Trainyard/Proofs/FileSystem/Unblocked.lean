import Trainyard.Proofs.FileSystem.Opens
import Trainyard.Proofs.FileSystem.Storing

/-!
# Ways without files

A walk along which no file stands goes through, or ends where something is missing. What is
missing can be made, also where the way goes down and up again. So along such a way directories
are made without failure, and a path to nothing is answered by saying so.
-/

set_option autoImplicit false

namespace Trainyard.FileSystem

structure Unblocked (fs : FileSystem) (p : Path) : Prop where
  origin : fs.item? (p.origin fs.working) = some .directory
  limits : ∀ c ∈ p.components, c.utf8ByteSize ≤ nameLimit
  way : ∀ k ∈ p.way fs.working, blocks (fs.item? k) = false

/-! ## Paths that are too long -/

section Long

variable {fs : FileSystem} {p : Path}

theorem isEmpty_of_long (hlong : pathLimit ≤ p.text.utf8ByteSize) : p.isEmpty = false := by
  rw [← Bool.not_eq_true]
  intro hempty
  obtain ⟨text⟩ := p
  obtain rfl : text = "" := by simpa [Path.isEmpty] using hempty
  exact absurd hlong (by decide)

theorem locate_of_long (fs : FileSystem) (hlong : pathLimit ≤ p.text.utf8ByteSize) :
    fs.locate p = .error .nameTooLong := by
  rw [locate, if_neg (by simp [isEmpty_of_long hlong]), if_pos hlong]

theorem stat_of_long (fs : FileSystem) (hnul : '\x00' ∉ p.text.toList)
    (hlong : pathLimit ≤ p.text.utf8ByteSize) : fs.stat p = .error .nameTooLong := by
  rw [stat, find, checked, if_neg (by simpa using hnul), locate_of_long fs hlong]
  rfl

theorem short_of_stat {e : Entry} (h : fs.stat p = .ok e) : p.text.utf8ByteSize < pathLimit := by
  rw [← Nat.not_le]
  intro hlong
  rw [stat, find, locate_of_long fs hlong] at h
  cases hchecked : checked p with
  | error cause =>
    rw [hchecked] at h
    cases h
  | ok u =>
    rw [hchecked] at h
    cases h

theorem makeDirectories_of_long (hnul : '\x00' ∉ p.text.toList)
    (hlong : pathLimit ≤ p.text.utf8ByteSize) :
    fs.makeDirectories p = (.error .nameTooLong, fs) := by
  apply makeDirectories_of_refused (isEmpty_of_long hlong)
  rw [refusal, if_neg (by simpa using hnul), if_pos hlong]

theorem write_of_long (hnul : '\x00' ∉ p.text.toList) (hlong : pathLimit ≤ p.text.utf8ByteSize)
    (b : ByteArray) : fs.write p b = .error .nameTooLong := by
  rw [write, checked, if_neg (by simpa using hnul), locate_of_long fs hlong]
  rfl

end Long

/-! ## Walking -/

theorem notFound_of_passage {look : Look} {names cs : List String}
    (hlimits : ∀ c ∈ cs, c.utf8ByteSize ≤ nameLimit)
    (hfree : ∀ k ∈ wayFrom names cs, blocks (look k) = false) {e : OsError}
    (h : passage look names cs = .error e) : e = .notFound := by
  induction cs generalizing names with
  | nil => cases h
  | cons c cs ih =>
    rw [List.forall_mem_cons] at hlimits
    rw [wayFrom] at hfree
    rw [passage] at h
    split at h
    next hdot =>
      rw [if_pos hdot] at hfree
      exact ih hlimits.2 hfree h
    next hdot =>
      rw [if_neg hdot] at hfree
      split at h
      next hup =>
        rw [if_pos hup] at hfree
        exact ih hlimits.2 hfree h
      next hup =>
        rw [if_neg hup, List.forall_mem_cons] at hfree
        rw [if_neg (Nat.not_lt.2 hlimits.1)] at h
        split at h
        next =>
          cases h
          rfl
        next hfile =>
          rw [hfile] at hfree
          cases hfree.1
        next => exact ih hlimits.2 hfree.2 h

section Views

variable {fs : FileSystem} {p : Path}

theorem seek_eq_notFound {slash : Bool} {names cs : List String}
    (hstart : fs.item? names.reverse = some .directory)
    (hlimits : ∀ c ∈ cs, c.utf8ByteSize ≤ nameLimit)
    (hfree : ∀ k ∈ wayFrom names cs.reverse, blocks (fs.item? k) = false)
    (hnone : fs.item? (cs.reverse.foldl Path.climb names).reverse = none) :
    seek fs.item? slash names cs = .error .notFound := by
  cases cs with
  | nil =>
    have hend : fs.item? names.reverse = none := hnone
    rw [hstart] at hend
    cases hend
  | cons name before =>
    rw [List.reverse_cons, wayFrom_append, List.forall_mem_append] at hfree
    rw [List.forall_mem_cons] at hlimits
    rw [seek]
    cases hp : passage fs.item? names before.reverse with
    | error e =>
      have he := notFound_of_passage (by simpa using hlimits.2) hfree.1 hp
      rw [he]
    | ok ends =>
      have hthere := directory_of_passage hp hstart
      rw [List.reverse_cons, List.foldl_append, ← passage_ok hp, List.foldl_cons,
        List.foldl_nil, Path.climb] at hnone
      dsimp only
      split at hnone
      next =>
        rw [hthere] at hnone
        cases hnone
      next hdot =>
        rw [if_neg hdot]
        split at hnone
        next hup =>
          have hpasses : passage fs.item? ends [".."] = .ok ends.tail := rfl
          rw [directory_of_passage hpasses hthere] at hnone
          cases hnone
        next hup =>
          rw [List.reverse_cons] at hnone
          rw [if_neg hup, if_neg (Nat.not_lt.2 hlimits.1), hnone]

theorem stat_of_view_error {e : OsError} (h : fs.view p = .error e) : fs.stat p = .error e := by
  rw [view] at h
  rw [stat]
  cases hfind : fs.find p with
  | error cause =>
    rw [hfind] at h
    cases h
    rfl
  | ok found =>
    rw [hfind] at h
    cases h

theorem Unblocked.view_eq_notFound (h : fs.Unblocked p) (hnul : '\x00' ∉ p.text.toList)
    (hshort : p.text.utf8ByteSize < pathLimit) (hnone : fs.item? (p.key fs.working) = none) :
    fs.view p = .error .notFound := by
  rw [view_eq, if_neg (by simpa using hnul)]
  split
  next => rfl
  next =>
    rw [if_neg (Nat.not_le.2 hshort), h.origin]
    have hway := h.way
    rw [Path.way, List.forall_mem_cons] at hway
    refine seek_eq_notFound ?_ (by simpa using h.limits) ?_ ?_
    · rw [List.reverse_reverse]
      exact h.origin
    · rw [List.reverse_reverse]
      exact hway.2
    · rw [List.reverse_reverse, ← trail_eq]
      exact hnone

end Views

/-! ## Making directories -/

section Making

variable {fs fs₁ : FileSystem} {keys : List Key} {p : Path}

theorem Opens.blocks (h : Opens keys fs fs₁) (k : Key) :
    FileSystem.blocks (fs₁.item? k) = FileSystem.blocks (fs.item? k) := by
  rcases h.marks k with hsame | ⟨hmade, hwas | ⟨hnone, -⟩⟩
  · rw [item?_congr hsame]
  · rw [item?_of_mark? hmade, Mark.item_directory, hwas]
  · rw [item?_of_mark? hmade, Mark.item_directory, hnone]
    rfl

theorem ensure_spot {s : Spot} (hs : s.Sits fs.root) : fs.ensure (.ok (.spot s)) = .ok fs := by
  have hdirectory := hs.directory
  obtain ⟨names, here⟩ := s
  cases here with
  | file b t => cases hdirectory
  | directory es t => rfl

theorem ensure_follow {s : Spot} (hs : s.Sits fs.root) {name : String} {before ends : List String}
    (slash : Bool) (hp : passage fs.item? s.names before.reverse = .ok ends)
    (hlimit : name.utf8ByteSize ≤ nameLimit)
    (hfree : ∀ k ∈ wayFrom ends [name], blocks (fs.item? k) = false) :
    ∃ made, fs.ensure (fs.follow s slash (name :: before)) = .ok made ∧
      ∃ ends', passage made.item? s.names (before.reverse ++ [name]) = .ok ends' := by
  obtain ⟨s', hwalk, rfl⟩ := walk_of_passage hs hp
  obtain ⟨hs', -⟩ := walk_ok hwalk hs
  simp only [follow, hwalk, passage_append]
  rw [wayFrom] at hfree
  by_cases hdot : name = "."
  · rw [if_pos hdot]
    refine ⟨fs, ensure_spot hs', s'.names, ?_⟩
    rw [hp, hdot]
    rfl
  · rw [if_neg hdot] at hfree ⊢
    by_cases hup : name = ".."
    · rw [if_pos hup]
      refine ⟨fs, ensure_spot hs'.up, s'.names.tail, ?_⟩
      rw [hp, hup]
      rfl
    · rw [if_neg hup] at hfree ⊢
      have hclear : clearing fs.item? s'.key [name] = (.ok (), [s'.key ++ [name]]) := by
        have hhere := hfree _ List.mem_cons_self
        rw [clearing, if_neg (Nat.not_lt.2 hlimit), Spot.key, hhere]
        rfl
      rcases ensure_child hs' name slash with ⟨e, -, hrefused, -⟩ | ⟨made, -, hensure, hclears⟩
      · rw [hclear] at hrefused
        cases hrefused
      · refine ⟨made, hensure, name :: s'.names, ?_⟩
        rw [hclear] at hclears
        have hdirs : ∀ k, fs.item? k = some .directory → made.item? k = some .directory := by
          intro k hk
          rw [hclears.item, hk, ite_self]
        have hmade : made.item? (s'.names.reverse ++ [name]) = some .directory := by
          rw [hclears.item]
          exact if_pos List.mem_cons_self
        rw [passage_mono hdirs hp]
        show passage made.item? s'.names [name] = _
        rw [passage, if_neg hdot, if_neg hup, if_neg (Nat.not_lt.2 hlimit), hmade]
        rfl

theorem ensureBelow_follow {name : String} {before : List String}
    {above : FileSystem → Except OsError Unit × FileSystem} (slash : Bool)
    (horigin : fs.item? (p.origin fs.working) = some .directory)
    (hlimits : ∀ c ∈ before.reverse ++ [name], c.utf8ByteSize ≤ nameLimit)
    (hfree : ∀ k ∈ wayFrom (p.origin fs.working).reverse (before.reverse ++ [name]),
      blocks (fs.item? k) = false)
    (habove : passage fs.item? (p.origin fs.working).reverse before.reverse = .error .notFound →
      ∃ fs₁ keys, above fs = (.ok (), fs₁) ∧ Opens keys fs fs₁ ∧
        ∃ ends, passage fs₁.item? (p.origin fs.working).reverse before.reverse = .ok ends) :
    ∃ made, fs.ensureBelow (fun fs => do fs.follow (← fs.start p) slash (name :: before)) above =
        (.ok (), made) ∧
      ∃ ends, passage made.item? (p.origin fs.working).reverse (before.reverse ++ [name]) =
        .ok ends := by
  rw [List.forall_mem_append, List.forall_mem_singleton] at hlimits
  rw [wayFrom_append, List.forall_mem_append] at hfree
  obtain ⟨s, hstart, hs, hnames⟩ := start_of_directory horigin
  cases hp : passage fs.item? (p.origin fs.working).reverse before.reverse with
  | ok ends =>
    rw [← passage_ok hp] at hfree
    rw [← hnames] at hp ⊢
    obtain ⟨made, hensure, hpasses⟩ := ensure_follow hs slash hp hlimits.2 hfree.2
    refine ⟨made, ensureBelow_of_ok ?_, hpasses⟩
    rw [hstart]
    exact hensure
  | error e =>
    obtain rfl := notFound_of_passage hlimits.1 hfree.1 hp
    obtain ⟨fs₁, keys, habove, hopens, ends, hp₁⟩ := habove hp
    have hmissing : fs.ensure (do fs.follow (← fs.start p) slash (name :: before)) =
        .error .notFound := by
      have hwalk : walk fs.root s before.reverse = .error .notFound := by
        rw [← hnames] at hp
        exact walk_of_passage_error hs hp
      rw [hstart]
      show fs.ensure (fs.follow s slash (name :: before)) = _
      rw [follow, hwalk]
      rfl
    have horigin₁ : fs₁.item? (p.origin fs₁.working) = some .directory := by
      rw [hopens.working]
      exact hopens.toGrows.directory horigin
    obtain ⟨s₁, hstart₁, hs₁, hnames₁⟩ := start_of_directory horigin₁
    rw [hopens.working] at hnames₁
    have hfree₁ : ∀ k ∈ wayFrom ends [name], blocks (fs₁.item? k) = false := by
      intro k hk
      rw [passage_ok hp₁] at hk
      rw [hopens.blocks]
      exact hfree.2 k hk
    rw [← hnames₁] at hp₁ ⊢
    obtain ⟨made, hensure, hpasses⟩ := ensure_follow hs₁ slash hp₁ hlimits.2 hfree₁
    refine ⟨made, ?_, hpasses⟩
    have hagain : fs₁.ensure (do fs₁.follow (← fs₁.start p) slash (name :: before)) =
        .ok made := by
      rw [hstart₁]
      exact hensure
    rw [ensureBelow_of_above_ok hmissing habove]
    simp only [hagain]

theorem makeAlong_of_free (horigin : fs.item? (p.origin fs.working) = some .directory)
    {names : List String} (hlimits : ∀ n ∈ names, n.utf8ByteSize ≤ nameLimit)
    (hfree : ∀ k ∈ wayFrom (p.origin fs.working).reverse names.reverse,
      blocks (fs.item? k) = false) :
    ∃ made, makeAlong (fun fs => fs.start p) names fs = (.ok (), made) ∧
      ∃ ends, passage made.item? (p.origin fs.working).reverse names.reverse = .ok ends := by
  induction names with
  | nil => exact ⟨fs, rfl, _, rfl⟩
  | cons name outer ih =>
    rw [List.reverse_cons] at hfree ⊢
    have houter : ∀ k ∈ wayFrom (p.origin fs.working).reverse outer.reverse,
        blocks (fs.item? k) = false := by
      intro k hk
      apply hfree
      rw [wayFrom_append]
      exact List.mem_append_left _ hk
    obtain ⟨fs₁, hmade, hpasses⟩ := ih (fun n hn => hlimits n (List.mem_cons_of_mem _ hn)) houter
    have hopens := opens_makeAlong p fs fun k (hk : k ∈ wayFrom _ outer.reverse) => hk
    rw [hmade] at hopens
    exact ensureBelow_follow false horigin (by simpa [or_comm] using hlimits) hfree fun _ =>
      ⟨fs₁, _, hmade, hopens, hpasses⟩

theorem filter_outer_names {before : List String} {last : String} (hlast : last ≠ ".")
    (hcomponents : p.components = before ++ [last]) :
    p.names.tail.reverse.filter (· ≠ ".") = before.filter (· ≠ ".") := by
  have hfilter := filter_names p
  rw [hcomponents, List.filter_append, List.filter_cons_of_pos (by simp [hlast])] at hfilter
  cases hkept : (p.pieces.filter fun piece => !Path.isBlank piece).reverse with
  | nil =>
    rw [Path.names_eq, hkept] at hfilter
    split at hfilter <;> simp at hfilter
  | cons name outer =>
    have hname : name ≠ "." := by
      have hmem : name ∈ p.pieces.filter fun piece => !Path.isBlank piece := by
        rw [← List.mem_reverse, hkept]
        exact List.mem_cons_self
      rintro rfl
      simp [Path.isBlank] at hmem
    rw [Path.names_eq, hkept, List.cons_append, List.reverse_cons, List.filter_append,
      List.filter_cons_of_pos (by simp [hname])] at hfilter
    rw [Path.names_eq, hkept, List.cons_append, List.tail_cons]
    exact (List.append_inj' hfilter rfl).1

theorem Unblocked.makeAlong (h : fs.Unblocked p) (htrimmed : p.Trimmed) {before : List String}
    {last : String} (hcomponents : p.components = before ++ [last])
    (hmissing : passage fs.item? (p.origin fs.working).reverse before = .error .notFound) :
    ∃ fs₁ keys, makeAlong (fun fs => fs.start p) p.names.tail fs = (.ok (), fs₁) ∧
      Opens keys fs fs₁ ∧
      ∃ ends, passage fs₁.item? (p.origin fs.working).reverse before = .ok ends := by
  have hlast : last ≠ "." := by
    rintro rfl
    rw [← passage_filter, htrimmed _ hcomponents] at hmissing
    cases hmissing
  have hnames := filter_outer_names hlast hcomponents
  have hkeys : wayFrom (p.origin fs.working).reverse p.names.tail.reverse =
      wayFrom (p.origin fs.working).reverse before := by
    rw [← wayFrom_filter, hnames, wayFrom_filter]
  have hfree : ∀ k ∈ wayFrom (p.origin fs.working).reverse p.names.tail.reverse,
      blocks (fs.item? k) = false := by
    intro k hk
    apply h.way
    rw [Path.way, hcomponents, wayFrom_append]
    exact List.mem_cons_of_mem _ (List.mem_append_left _ (hkeys ▸ hk))
  have hlimits : ∀ n ∈ p.names.tail, n.utf8ByteSize ≤ nameLimit := by
    intro n hn
    by_cases hdot : n = "."
    · rw [hdot]
      decide
    · have hmem : n ∈ p.names.tail.reverse.filter (· ≠ ".") := by simp [hn, hdot]
      rw [hnames] at hmem
      apply h.limits
      rw [hcomponents]
      exact List.mem_append_left _ (List.mem_filter.1 hmem).1
  obtain ⟨fs₁, hmade, ends, hpasses⟩ := makeAlong_of_free h.origin hlimits hfree
  have hopens := opens_makeAlong p fs fun k (hk : k ∈ wayFrom _ p.names.tail.reverse) => hk
  rw [hmade] at hopens
  rw [← passage_filter, hnames, passage_filter] at hpasses
  exact ⟨fs₁, _, hmade, hopens, ends, hpasses⟩

/-- Along a way without files all directories can be made, if the path does not ask for a dot in
a directory that is missing. -/
theorem Unblocked.makeDirectories (h : fs.Unblocked p) (hnul : '\x00' ∉ p.text.toList)
    (hshort : p.text.utf8ByteSize < pathLimit) (htrimmed : p.Trimmed) :
    ∃ made, fs.makeDirectories p = (.ok (), made) := by
  rw [FileSystem.makeDirectories]
  split
  next => exact ⟨fs, rfl⟩
  next hempty =>
    have htarget : (fun fs : FileSystem => do checked p; fs.locate p) =
        (fun fs => do fs.follow (← fs.start p) p.endsInSlash p.components.reverse) := by
      funext fs
      rw [checked, if_neg (by simpa using hnul), locate, if_neg hempty,
        if_neg (Nat.not_le.2 hshort)]
      rfl
    rw [htarget]
    cases hc : p.components.reverse with
    | nil =>
      obtain ⟨s, hstart, hs, -⟩ := start_of_directory h.origin
      refine ⟨fs, ensureBelow_of_ok ?_⟩
      rw [hstart]
      exact ensure_spot hs
    | cons last before =>
      have hcomponents : p.components = before.reverse ++ [last] := by
        rw [← List.reverse_reverse p.components, hc, List.reverse_cons]
      have hlimits := h.limits
      have hway := h.way
      rw [Path.way, List.forall_mem_cons, hcomponents] at hway
      rw [hcomponents] at hlimits
      obtain ⟨made, hmade, -⟩ := ensureBelow_follow p.endsInSlash h.origin hlimits hway.2
        (h.makeAlong htrimmed hcomponents)
      exact ⟨made, hmade⟩

end Making

/-! ## Files at the end of a way -/

section Writing

variable {fs : FileSystem} {p dir : Path} {k : Key} {names : List String} {name : String}

theorem mem_wayFrom {cs : List String} (hplain : ∀ c ∈ cs, Path.Plain c)
    (h : k ∈ wayFrom names cs) :
    ∃ below, below <+: cs ∧ below ≠ [] ∧ k = names.reverse ++ below := by
  induction cs generalizing names with
  | nil => cases h
  | cons c cs ih =>
    rw [List.forall_mem_cons] at hplain
    rw [wayFrom, if_neg hplain.1.dot, if_neg hplain.1.dots] at h
    rcases List.mem_cons.1 h with rfl | h
    · exact ⟨[c], by simp, by simp, rfl⟩
    · obtain ⟨below, hbelow, -, rfl⟩ := ih hplain.2 h
      exact ⟨c :: below, by simpa using hbelow, by simp, by simp⟩

theorem mem_way_descend {working : Key} (hplain : ∀ n ∈ names, Path.Plain n)
    (h : k ∈ (p.descend names).way working) :
    k ∈ p.way working ∨ ∃ below, below <+: names ∧ below ≠ [] ∧ k = p.key working ++ below := by
  have horigin : (p.descend names).origin working = p.origin working := by
    rw [Path.origin, Path.origin, Path.isAbsolute_descend hplain]
  rw [Path.way, horigin, Path.components_descend hplain, wayFrom_append, List.mem_cons,
    List.mem_append] at h
  rcases h with h | h | h
  · exact .inl (h ▸ List.mem_cons_self)
  · exact .inl (List.mem_cons_of_mem _ h)
  · rw [← trail_eq] at h
    exact .inr (mem_wayFrom hplain h)

theorem Unblocked.descend (h : fs.Unblocked p) (hplain : ∀ n ∈ names, Path.Plain n)
    (hlimits : ∀ n ∈ names, n.utf8ByteSize ≤ nameLimit)
    (hfree : Free fs.item? (p.key fs.working) names) : fs.Unblocked (p.descend names) := by
  refine ⟨?_, ?_, fun k hk => ?_⟩
  · rw [Path.origin, Path.isAbsolute_descend hplain]
    exact h.origin
  · rw [Path.components_descend hplain]
    exact List.forall_mem_append.2 ⟨h.limits, hlimits⟩
  · rcases mem_way_descend hplain hk with hway | ⟨below, hbelow, hne, rfl⟩
    · exact h.way k hway
    · exact hfree below hbelow hne

theorem Unblocked.child (h : fs.Unblocked p) (hname : Path.Plain name)
    (hlimit : name.utf8ByteSize ≤ nameLimit)
    (hend : blocks (fs.item? (p.key fs.working ++ [name])) = false) :
    fs.Unblocked (p.child name) := by
  have hfree : Free fs.item? (p.key fs.working) [name] := free_cons.2 ⟨hend, by simp [Free]⟩
  exact h.descend (by simpa using hname) (by simpa using hlimit) hfree

section Respelled

variable (habsolute : dir.isAbsolute = p.isAbsolute)
  (hnames : dir.components.filter (· ≠ ".") = p.components.filter (· ≠ "."))

include habsolute hnames

theorem way_respelled (working : Key) : dir.way working = p.way working := by
  have horigin : dir.origin working = p.origin working := by
    rw [Path.origin, Path.origin, habsolute]
  rw [Path.way, Path.way, horigin, ← wayFrom_filter, hnames, wayFrom_filter]

theorem Unblocked.respelled (h : fs.Unblocked p) : fs.Unblocked dir := by
  refine ⟨?_, fun c hc => ?_, ?_⟩
  · rw [Path.origin, habsolute]
    exact h.origin
  · by_cases hdot : c = "."
    · rw [hdot]
      decide
    · have hmem : c ∈ dir.components.filter (· ≠ ".") := by simp [hc, hdot]
      rw [hnames] at hmem
      exact h.limits c (List.mem_filter.1 hmem).1
  · rw [way_respelled habsolute hnames]
    exact h.way

end Respelled

theorem Unblocked.enters_of_makeDirectories {made : FileSystem} (h : fs.Unblocked p)
    (hmade : fs.makeDirectories p = (.ok (), made)) : made.Enters p := by
  cases hempty : p.isEmpty with
  | false => exact FileSystem.enters_of_makeDirectories hempty hmade
  | true =>
    rw [FileSystem.makeDirectories, if_pos hempty] at hmade
    cases hmade
    have hcomponents : p.components = [] := by
      obtain ⟨text⟩ := p
      obtain rfl : text = "" := by simpa [Path.isEmpty] using hempty
      exact Path.components_empty
    exact enters_iff.2 ⟨h.origin, _, by rw [hcomponents]; rfl⟩

/-- The directory that a file goes into can be made, unless its own path is too long. -/
theorem Unblocked.makeParent (h : fs.Unblocked p) (hname : Path.Plain name)
    (hnul : '\x00' ∉ (p.child name).text.toList) :
    ∃ dir, (p.child name).parent? = some dir ∧
      dir.text.utf8ByteSize ≤ (p.child name).text.utf8ByteSize ∧
      (pathLimit ≤ dir.text.utf8ByteSize → fs.makeDirectories dir = (.error .nameTooLong, fs)) ∧
      (dir.text.utf8ByteSize < pathLimit → ∃ made, fs.makeDirectories dir = (.ok (), made) ∧
        Opens (p.way fs.working) fs made ∧ made.Enters p) := by
  obtain ⟨dir, hparent, hheads, hnames⟩ := Path.heads_child hname p
  have habsolute := hheads.absolute.trans (Path.isAbsolute_child hname p)
  have hdir : fs.Unblocked dir := h.respelled habsolute hnames
  have hnul' : '\x00' ∉ dir.text.toList := fun hmem => hnul (hheads.short.subset hmem)
  refine ⟨dir, hparent, utf8ByteSize_le_of_start hheads.short, makeDirectories_of_long hnul',
    fun hshort => ?_⟩
  obtain ⟨made, hmade⟩ := hdir.makeDirectories hnul' hshort (Path.trimmed_of_parent? hparent)
  have hopens := opens_makeDirectories dir fs
  rw [hmade, way_respelled habsolute hnames] at hopens
  exact ⟨made, hmade, hopens, (hdir.enters_of_makeDirectories hmade).respelled
    habsolute.symm hnames.symm⟩

/-- A file is written where no directory is, after all directories on its way were made. -/
theorem Unblocked.write (h : fs.Unblocked p) (hname : Path.Plain name)
    (hlimit : name.utf8ByteSize ≤ nameLimit) (hnul : '\x00' ∉ (p.child name).text.toList)
    (hshort : (p.child name).text.utf8ByteSize < pathLimit)
    (hend : fs.item? (p.key fs.working ++ [name]) ≠ some .directory)
    (hoff : p.key fs.working ++ [name] ∉ p.way fs.working) (b : ByteArray) :
    ∃ dir made fs', (p.child name).parent? = some dir ∧
      fs.makeDirectories dir = (.ok (), made) ∧ made.write (p.child name) b = .ok fs' ∧
      Opens (p.way fs.working) fs made := by
  obtain ⟨dir, hparent, hsize, -, hmake⟩ := h.makeParent hname hnul
  obtain ⟨made, hmade, hopens, henters⟩ := hmake (Nat.lt_of_le_of_lt hsize hshort)
  have hthere : made.item? (p.key made.working ++ [name]) ≠ some .directory := by
    rw [hopens.working]
    rcases hopens.marks (p.key fs.working ++ [name]) with hsame | ⟨-, hwas | ⟨-, hmem⟩⟩
    · rw [item?_congr hsame]
      exact hend
    · exact absurd hwas hend
    · exact absurd hmem hoff
  rcases write_child henters hname b with ⟨e, hrefused, -⟩ | ⟨fs', -, hwrite, -⟩
  · rw [admits.eq_def, refusal_eq_none hnul hshort] at hrefused
    dsimp only at hrefused
    rw [if_neg (Nat.not_lt.2 hlimit)] at hrefused
    split at hrefused
    next hdirectory => exact absurd hdirectory hthere
    next => cases hrefused
    next => cases hrefused
  · exact ⟨dir, made, fs', hparent, hmade, hwrite, hopens⟩

end Writing

end Trainyard.FileSystem
