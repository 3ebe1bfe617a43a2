import Trainyard.Proofs.FileSystem.Enter

/-!
# Making directories along names

Directories are made along names up to the first name that is too long or stands for a
file. What comes of it is a function of the files on the way; whether others have made
some of the directories before makes no difference.
-/

set_option autoImplicit false

namespace Trainyard.FileSystem

/-! ## Seen on a map -/

def blocks : Option Item → Bool
  | some (.file ..) => true
  | _ => false

def clearing (look : Look) : Key → List String → Except OsError Unit × List Key
  | _, [] => (.ok (), [])
  | k, n :: ns =>
    if nameLimit < n.utf8ByteSize then (.error .nameTooLong, [])
    else if blocks (look (k ++ [n])) then
      (.error (if ns.isEmpty then .alreadyExists else .notADirectory), [])
    else ((clearing look (k ++ [n]) ns).1, (k ++ [n]) :: (clearing look (k ++ [n]) ns).2)

section Clearing

variable {fs : FileSystem} {k : Key} {names : List String} {name : String}

/-- Only files on the way matter, not which of the directories are there. -/
theorem clearing_congr {look look' : Look} (h : ∀ below, below <+: names → below ≠ [] →
      blocks (look' (k ++ below)) = blocks (look (k ++ below))) :
    clearing look' k names = clearing look k names := by
  induction names generalizing k with
  | nil => rfl
  | cons n ns ih =>
    have hrest : clearing look' (k ++ [n]) ns = clearing look (k ++ [n]) ns := by
      refine ih fun below hbelow _ => ?_
      have hfurther := h (n :: below) (by simpa using hbelow) (by simp)
      simpa using hfurther
    rw [clearing, clearing, hrest, h [n] (by simp) (by simp)]

theorem clearing_keys {look : Look} {key : Key} (h : key ∈ (clearing look k names).2) :
    ∃ below, below <+: names ∧ below ≠ [] ∧ key = k ++ below := by
  induction names generalizing k with
  | nil => simp [clearing] at h
  | cons n ns ih =>
    rw [clearing] at h
    split at h
    next => simp at h
    next =>
      split at h
      next => simp at h
      next =>
        rcases List.mem_cons.1 h with rfl | h
        · exact ⟨[n], by simp, by simp, rfl⟩
        · obtain ⟨below, hbelow, -, rfl⟩ := ih h
          exact ⟨n :: below, by simpa using hbelow, by simp, by simp⟩

def Free (look : Look) (k : Key) (names : List String) : Prop :=
  ∀ below, below <+: names → below ≠ [] → blocks (look (k ++ below)) = false

theorem free_cons {look : Look} {n : String} {ns : List String} :
    Free look k (n :: ns) ↔ blocks (look (k ++ [n])) = false ∧ Free look (k ++ [n]) ns := by
  constructor
  · intro h
    refine ⟨h [n] (by simp) (by simp), fun below hbelow _ => ?_⟩
    have hfurther := h (n :: below) (by simpa using hbelow) (by simp)
    simpa using hfurther
  · rintro ⟨hfirst, hrest⟩ below hbelow hne
    obtain ⟨m, rest, rfl⟩ := List.exists_cons_of_ne_nil hne
    obtain ⟨rfl, hprefix⟩ := List.cons_prefix_cons.1 hbelow
    cases rest with
    | nil => exact hfirst
    | cons r rest => simpa using hrest (r :: rest) hprefix (by simp)

theorem clearing_append {look : Look} (h : Free look k names) (name : String) :
    clearing look k (names ++ [name]) = match (clearing look k names).1 with
      | .error e => (.error e, (clearing look k names).2)
      | .ok _ => ((clearing look (k ++ names) [name]).1,
          (clearing look k names).2 ++ (clearing look (k ++ names) [name]).2) := by
  induction names generalizing k with
  | nil => simp [clearing]
  | cons n ns ih =>
    obtain ⟨hfirst, hrest⟩ := free_cons.1 h
    have hrest := ih hrest
    rw [List.cons_append, clearing.eq_def look k (n :: (ns ++ [name])),
      clearing.eq_def look k (n :: ns)]
    simp only [hfirst, Bool.false_eq_true, if_false, hrest]
    by_cases hlong : nameLimit < n.utf8ByteSize
    · simp only [if_pos hlong]
    · simp only [if_neg hlong]
      cases (clearing look (k ++ [n]) ns).1 <;> simp

theorem clearing_of_passage {look : Look} (h : ∀ n ∈ names, Path.Plain n) {ends : List String}
    (hp : passage look k.reverse names = .ok ends) :
    Free look k names ∧ (clearing look k names).1 = .ok () ∧
      ∀ key ∈ (clearing look k names).2, look key = some .directory := by
  induction names generalizing k with
  | nil => exact ⟨by simp [Free], rfl, by simp [clearing]⟩
  | cons n ns ih =>
    rw [List.forall_mem_cons] at h
    rw [passage_cons h.1] at hp
    split at hp
    next => simp at hp
    next hlong =>
      split at hp
      next => simp at hp
      next => simp at hp
      next hdir =>
        obtain ⟨hfree, hanswer, hkeys⟩ := ih h.2 hp
        have hblocks : blocks (look (k ++ [n])) = false := by rw [hdir]; rfl
        refine ⟨free_cons.2 ⟨hblocks, hfree⟩, ?_⟩
        rw [clearing, if_neg hlong, if_neg (by simp [hblocks])]
        exact ⟨hanswer, List.forall_mem_cons.2 ⟨hdir, hkeys⟩⟩

theorem free_of_missing (h : ∀ n ∈ names, Path.Plain n)
    (hp : passage fs.item? k.reverse names = .error .notFound) (name : String) :
    Free fs.item? k (names ++ [name]) := by
  induction names generalizing k with
  | nil => simp [passage] at hp
  | cons n ns ih =>
    rw [List.forall_mem_cons] at h
    rw [passage_cons h.1] at hp
    split at hp
    next => simp at hp
    next hlong =>
      rw [List.cons_append]
      split at hp
      next hnone =>
        refine free_cons.2 ⟨by rw [hnone]; rfl, fun below _ hne => ?_⟩
        obtain ⟨m, rest, rfl⟩ := List.exists_cons_of_ne_nil hne
        cases hitem : fs.item? (k ++ [n] ++ m :: rest) with
        | none => rfl
        | some i =>
          have habove : fs.item? (k ++ [n]) = some .directory :=
            item?_above (by rw [hitem]; simp)
          simp [hnone] at habove
      next => simp at hp
      next hdir => exact free_cons.2 ⟨by rw [hdir]; rfl, ih h.2 hp⟩

theorem clearing_append_of_stopped {look : Look} (h : ∀ n ∈ names, Path.Plain n) {e : OsError}
    (hp : passage look k.reverse names = .error e) (he : e ≠ .notFound) (name : String) :
    (clearing look k (names ++ [name])).1 = .error e ∧
      ∀ key ∈ (clearing look k (names ++ [name])).2, look key = some .directory := by
  induction names generalizing k with
  | nil => simp [passage] at hp
  | cons n ns ih =>
    rw [List.forall_mem_cons] at h
    rw [passage_cons h.1] at hp
    rw [List.cons_append, clearing]
    split at hp
    next hlong =>
      cases hp
      simp [hlong]
    next hlong =>
      rw [if_neg hlong]
      split at hp
      next => cases hp; exact absurd rfl he
      next b t hfile =>
        cases hp
        simp [hfile, blocks]
      next hdir =>
        obtain ⟨hanswer, hkeys⟩ := ih h.2 hp
        have hblocks : blocks (look (k ++ [n])) = false := by rw [hdir]; rfl
        rw [if_neg (by simp [hblocks])]
        exact ⟨hanswer, List.forall_mem_cons.2 ⟨hdir, hkeys⟩⟩

theorem passage_of_clearing {look look' : Look} (h : ∀ n ∈ names, Path.Plain n)
    (hc : (clearing look k names).1 = .ok ())
    (hkeys : ∀ key ∈ (clearing look k names).2, look' key = some .directory) :
    ∃ ends, passage look' k.reverse names = .ok ends := by
  induction names generalizing k with
  | nil => exact ⟨k.reverse, rfl⟩
  | cons n ns ih =>
    rw [List.forall_mem_cons] at h
    rw [clearing] at hc hkeys
    rw [passage_cons h.1]
    split at hc
    next => simp at hc
    next hlong =>
      rw [if_neg hlong] at hkeys ⊢
      split at hc
      next => simp at hc
      next hblocks =>
        rw [if_neg hblocks, List.forall_mem_cons] at hkeys
        rw [hkeys.1]
        exact ih h.2 hc hkeys.2

end Clearing

/-! ## What is made -/

def Lacks (fs : FileSystem) (keys : List Key) (k : Key) : Prop :=
  (k ∈ keys ∧ fs.item? k = none) ∨ ∃ n, k ++ [n] ∈ keys ∧ fs.item? (k ++ [n]) = none

structure Clears (fs fs' : FileSystem) (keys : List Key) : Prop where
  working : fs'.working = fs.working
  now : fs'.now = fs.now
  clear : ∀ k ∈ keys, blocks (fs.item? k) = false
  rooted : ∀ k n, k ++ [n] ∈ keys → k ∈ keys ∨ fs.item? k = some .directory
  made : ∀ k, fs.Lacks keys k → fs'.mark? k = some (.directory fs.now)
  same : ∀ k, ¬ fs.Lacks keys k → fs'.mark? k = fs.mark? k

def Leads (fs : FileSystem) (k : Key) (names : List String) (name : String)
    (target : Except OsError Target) : Prop :=
  match passage fs.item? k.reverse names with
  | .error e => target = .error e
  | .ok _ => ∃ s : Spot, s.Sits fs.root ∧ s.key = k ++ names ∧ target = .ok (.child s name false)

section Along

variable {fs fs₁ fs₂ : FileSystem} {k : Key} {names : List String} {name : String}

theorem directory_of_not_blocks {i : Option Item} (h : blocks i = false) (hne : i ≠ none) :
    i = some .directory := by
  cases i with
  | none => exact absurd rfl hne
  | some i =>
    cases i with
    | file b t => simp [blocks] at h
    | directory => rfl

theorem Clears.item {keys : List Key} (h : Clears fs fs₁ keys) (k : Key) :
    fs₁.item? k = if k ∈ keys then some .directory else fs.item? k := by
  by_cases hlacks : fs.Lacks keys k
  · rw [item?_of_mark? (h.made k hlacks), Mark.item_directory]
    split
    next => rfl
    next hk =>
      rcases hlacks with ⟨hmem, -⟩ | ⟨n, hn, -⟩
      · exact absurd hmem hk
      · exact ((h.rooted k n hn).resolve_left hk).symm
  · rw [item?_congr (h.same k hlacks)]
    split
    next hk =>
      refine directory_of_not_blocks (h.clear k hk) fun hnone => ?_
      exact hlacks (.inl ⟨hk, hnone⟩)
    next => rfl

theorem clears_of_directories {keys : List Key} (h : ∀ k ∈ keys, fs.item? k = some .directory) :
    Clears fs fs keys := by
  refine ⟨rfl, rfl, fun k hk => ?_, fun k n hn => ?_, fun k hlacks => ?_, fun _ _ => rfl⟩
  · rw [h k hk]
    rfl
  · exact .inr (item?_above (by rw [h _ hn]; simp))
  · rcases hlacks with ⟨hk, hnone⟩ | ⟨n, hn, hnone⟩
    · simp [h k hk] at hnone
    · simp [h _ hn] at hnone

theorem Clears.append {keys keys' : List Key} (h : Clears fs fs₁ keys) (h' : Clears fs₁ fs₂ keys') :
    Clears fs fs₂ (keys ++ keys') := by
  have hclear : ∀ k ∈ keys', blocks (fs.item? k) = false := by
    intro k hk
    have hlater := h'.clear k hk
    rw [h.item] at hlater
    split at hlater
    next hmem => exact h.clear k hmem
    next => exact hlater
  have hnone (k : Key) : fs₁.item? k = none ↔ k ∉ keys ∧ fs.item? k = none := by
    rw [h.item]
    split
    next hk => simp [hk]
    next hk => simp [hk]
  -- what is missing for all keys is missing for the first ones, or after these were made
  have hlacks (k : Key) :
      fs.Lacks (keys ++ keys') k ↔ fs.Lacks keys k ∨ fs₁.Lacks keys' k := by
    simp only [Lacks, List.mem_append, hnone]
    constructor
    · rintro (⟨hk, hmissing⟩ | ⟨n, hk, hmissing⟩)
      · by_cases hmem : k ∈ keys
        · exact .inl (.inl ⟨hmem, hmissing⟩)
        · exact .inr (.inl ⟨hk.resolve_left hmem, hmem, hmissing⟩)
      · by_cases hmem : k ++ [n] ∈ keys
        · exact .inl (.inr ⟨n, hmem, hmissing⟩)
        · exact .inr (.inr ⟨n, hk.resolve_left hmem, hmem, hmissing⟩)
    · rintro ((⟨hk, hmissing⟩ | ⟨n, hk, hmissing⟩) | ⟨hk, -, hmissing⟩ | ⟨n, hk, -, hmissing⟩)
      · exact .inl ⟨.inl hk, hmissing⟩
      · exact .inr ⟨n, .inl hk, hmissing⟩
      · exact .inl ⟨.inr hk, hmissing⟩
      · exact .inr ⟨n, .inr hk, hmissing⟩
  refine ⟨h'.working.trans h.working, h'.now.trans h.now, ?_, ?_, ?_, ?_⟩
  · exact List.forall_mem_append.2 ⟨h.clear, hclear⟩
  · intro k n hk
    rcases List.mem_append.1 hk with hk | hk
    · exact (h.rooted k n hk).imp_left (List.mem_append_left keys')
    · rcases h'.rooted k n hk with hmem | hdir
      · exact .inl (List.mem_append_right _ hmem)
      · rw [h.item] at hdir
        split at hdir
        next hmem => exact .inl (List.mem_append_left _ hmem)
        next => exact .inr hdir
  · intro k hk
    by_cases hlater : fs₁.Lacks keys' k
    · rw [h'.made k hlater, h.now]
    · rw [h'.same k hlater]
      exact h.made k (((hlacks k).1 hk).resolve_right hlater)
  · intro k hk
    rw [hlacks, not_or] at hk
    rw [h'.same k hk.2, h.same k hk.1]

theorem clears_of_puts {parent : Key} (hnone : fs.item? (parent ++ [name]) = none)
    (h : Puts fs fs₁ parent name (.directory fs.now) true) : Clears fs fs₁ [parent ++ [name]] := by
  have hlacks (k : Key) : fs.Lacks [parent ++ [name]] k ↔ k = parent ++ [name] ∨ k = parent := by
    simp only [Lacks, List.mem_singleton]
    constructor
    · rintro (⟨hk, -⟩ | ⟨n, hn, -⟩)
      · exact .inl hk
      · exact .inr (List.append_inj_left' hn rfl)
    · rintro (rfl | rfl)
      · exact .inl ⟨rfl, hnone⟩
      · exact .inr ⟨name, rfl, hnone⟩
  refine ⟨h.working, h.now, ?_, ?_, fun k hk => ?_, fun k hk => ?_⟩
  · simp [hnone, blocks]
  · intro k n hk
    rw [List.mem_singleton] at hk
    rw [List.append_inj_left' hk rfl]
    exact .inr h.directory
  · rw [h.mark]
    rcases (hlacks k).1 hk with hk | hk <;> simp [hk]
  · rw [hlacks, not_or] at hk
    rw [h.mark, if_neg hk.1, if_neg (by simp [hk.2])]

theorem ensure_child {s : Spot} (hs : s.Sits fs.root) (name : String) (slash : Bool) :
    (∃ e, e ≠ .notFound ∧ clearing fs.item? s.key [name] = (.error e, []) ∧
        fs.ensure (.ok (.child s name slash)) = .error e) ∨
      ∃ made, (clearing fs.item? s.key [name]).1 = .ok () ∧
        fs.ensure (.ok (.child s name slash)) = .ok made ∧
        Clears fs made (clearing fs.item? s.key [name]).2 := by
  have hitem : fs.item? (s.key ++ [name]) = (s.here.child? name).map Entry.item :=
    item?_key_append hs name
  rw [clearing, clearing, hitem]
  by_cases hlong : nameLimit < name.utf8ByteSize
  · refine .inl ⟨.nameTooLong, by simp, by rw [if_pos hlong], ?_⟩
    simp [ensure, makeAt, Target.entry, Spot.look, hlong, bind, Except.bind]
  · have hlook : s.look name = .ok (s.here.child? name) := by rw [Spot.look, if_neg hlong]
    rw [if_neg hlong]
    cases hchild : s.here.child? name with
    | none =>
      have hmake : fs.makeAt (.child s name slash) =
          .ok (fs.add s.key name (.directory [] fs.now)) := by
        simp [makeAt, hlook, hchild, bind, Except.bind]
      obtain ⟨s', name', slash', htarget, -, hnone, hputs⟩ :=
        makeAt_ok (t := .child s name slash) hs hmake
      cases htarget
      refine .inr ⟨_, rfl, ?_, clears_of_puts hnone hputs⟩
      simp [ensure, hmake, Target.entry, hlook, hchild, bind, Except.bind]
    | some e =>
      cases e with
      | file b t =>
        refine .inl ⟨.alreadyExists, by simp, rfl, ?_⟩
        cases slash <;> simp [ensure, makeAt, Target.entry, hlook, hchild, bind, Except.bind]
      | directory es t =>
        refine .inr ⟨fs, rfl, ?_, clears_of_directories (by simp [blocks, hitem, hchild])⟩
        simp [ensure, makeAt, Target.entry, hlook, hchild, bind, Except.bind]

theorem ensure_of_leads {target : Except OsError Target} {ends : List String}
    (h : Leads fs k names name target) (hp : passage fs.item? k.reverse names = .ok ends) :
    (∃ e, e ≠ .notFound ∧ clearing fs.item? (k ++ names) [name] = (.error e, []) ∧
        fs.ensure target = .error e) ∨
      ∃ made, (clearing fs.item? (k ++ names) [name]).1 = .ok () ∧ fs.ensure target = .ok made ∧
        Clears fs made (clearing fs.item? (k ++ names) [name]).2 := by
  rw [Leads, hp] at h
  obtain ⟨s, hs, hkey, rfl⟩ := h
  rw [← hkey]
  exact ensure_child hs name false

section Cases

variable {target : FileSystem → Except OsError Target}
  {above : FileSystem → Except OsError Unit × FileSystem} {e : OsError} {u : Unit}

theorem ensureBelow_of_ok (h : fs.ensure (target fs) = .ok fs₁) :
    fs.ensureBelow target above = (.ok (), fs₁) := by
  rw [ensureBelow, h]

theorem ensureBelow_of_error (h : fs.ensure (target fs) = .error e) (he : e ≠ .notFound) :
    fs.ensureBelow target above = (.error e, fs) := by
  rw [ensureBelow, h]
  cases e <;> first | rfl | exact absurd rfl he

theorem ensureBelow_of_above_error (h : fs.ensure (target fs) = .error .notFound)
    (ha : above fs = (.error e, fs₁)) : fs.ensureBelow target above = (.error e, fs₁) := by
  rw [ensureBelow, h]
  simp only [ha]

theorem ensureBelow_of_above_ok (h : fs.ensure (target fs) = .error .notFound)
    (ha : above fs = (.ok u, fs₁)) : fs.ensureBelow target above =
      match fs₁.ensure (target fs₁) with
      | .ok made => (.ok (), made)
      | .error e => (.error e, fs₁) := by
  rw [ensureBelow, h]
  cases hmade : fs₁.ensure (target fs₁) <;> simp only [ha, hmade]

end Cases

theorem ensure_after_above {target : Except OsError Target} (hplain : ∀ n ∈ names, Path.Plain n)
    (hfree : Free fs.item? k (names ++ [name])) (hok : (clearing fs.item? k names).1 = .ok ())
    (hclears : Clears fs fs₁ (clearing fs.item? k names).2) (hleads : Leads fs₁ k names name target) :
    let result : Except OsError Unit × FileSystem := match fs₁.ensure target with
      | .ok made => (.ok (), made)
      | .error e => (.error e, fs₁)
    result.1 = (clearing fs.item? (k ++ names) [name]).1 ∧
      Clears fs₁ result.2 (clearing fs.item? (k ++ names) [name]).2 := by
  have hkeys : ∀ key ∈ (clearing fs.item? k names).2, fs₁.item? key = some .directory := by
    intro key hkey
    rw [hclears.item, if_pos hkey]
  obtain ⟨ends, hpassage⟩ := passage_of_clearing hplain hok hkeys
  have hlast : blocks (fs.item? (k ++ names ++ [name])) = false := by
    simpa using hfree (names ++ [name]) List.prefix_rfl (by simp)
  have hlast₁ : blocks (fs₁.item? (k ++ names ++ [name])) = false := by
    rw [hclears.item]
    split
    · rfl
    · exact hlast
  have hsame : clearing fs₁.item? (k ++ names) [name] = clearing fs.item? (k ++ names) [name] := by
    simp only [clearing, hlast, hlast₁]
  rw [← hsame]
  rcases ensure_of_leads hleads hpassage with ⟨e, -, hanswer, hensure⟩ | ⟨made, hanswer, hensure, hmore⟩
  · rw [hensure, hanswer]
    exact ⟨rfl, clears_of_directories (by simp)⟩
  · rw [hensure, hanswer]
    exact ⟨rfl, hmore⟩

/-- What comes of making one directory after those above it. -/
theorem ensureBelow_of_leads (hplain : ∀ n ∈ names, Path.Plain n)
    {target : FileSystem → Except OsError Target}
    {above : FileSystem → Except OsError Unit × FileSystem}
    (hleads : ∀ fs', (∀ key, fs.item? key = some .directory → fs'.item? key = some .directory) →
      fs'.working = fs.working → Leads fs' k names name (target fs'))
    (habove : names ≠ [] → (above fs).1 = (clearing fs.item? k names).1 ∧
      Clears fs (above fs).2 (clearing fs.item? k names).2) :
    (fs.ensureBelow target above).1 = (clearing fs.item? k (names ++ [name])).1 ∧
      Clears fs (fs.ensureBelow target above).2 (clearing fs.item? k (names ++ [name])).2 := by
  have hhere := hleads fs (fun _ => id) rfl
  cases hp : passage fs.item? k.reverse names with
  | ok ends =>
    obtain ⟨hfree, hanswer, hkeys⟩ := clearing_of_passage hplain hp
    rw [clearing_append hfree, hanswer]
    rcases ensure_of_leads hhere hp with ⟨e, he, hlast, hensure⟩ | ⟨made, hlast, hensure, hclears⟩
    · rw [ensureBelow_of_error hensure he, hlast]
      exact ⟨rfl, by simpa using clears_of_directories hkeys⟩
    · rw [ensureBelow_of_ok hensure]
      exact ⟨hlast.symm, (clears_of_directories hkeys).append hclears⟩
  | error e =>
    rw [Leads, hp] at hhere
    have hensure : fs.ensure (target fs) = .error e := by rw [hhere]; rfl
    by_cases he : e = .notFound
    · -- something is missing on the way: it is made first, and then the directory itself
      subst he
      have hne : names ≠ [] := by
        rintro rfl
        simp [passage] at hp
      obtain ⟨hanswer, hclears⟩ := habove hne
      have hfree := free_of_missing hplain hp name
      have hbefore : Free fs.item? k names := fun below hbelow =>
        hfree below (hbelow.trans (List.prefix_append _ _))
      rw [clearing_append hbefore]
      rcases hmade : above fs with ⟨made, fs₁⟩
      rw [hmade] at hanswer hclears
      cases made with
      | error e =>
        rw [ensureBelow_of_above_error hensure hmade, ← hanswer]
        exact ⟨rfl, hclears⟩
      | ok u =>
        have hdirs : ∀ key, fs.item? key = some .directory → fs₁.item? key = some .directory := by
          intro key hkey
          rw [hclears.item, hkey, ite_self]
        obtain ⟨hlast, hmore⟩ := ensure_after_above hplain hfree hanswer.symm hclears
          (hleads fs₁ hdirs hclears.working)
        rw [ensureBelow_of_above_ok hensure hmade, ← hanswer]
        exact ⟨hlast, hclears.append hmore⟩
    · obtain ⟨hanswer, hkeys⟩ := clearing_append_of_stopped hplain hp he name
      rw [ensureBelow_of_error hensure he]
      exact ⟨hanswer.symm, clears_of_directories hkeys⟩

end Along

end Trainyard.FileSystem
