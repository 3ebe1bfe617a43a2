import Trainyard.Proofs.FileSystem.Below

/-!
# Work beside other work

A piece of work looks at some keys and changes some: these are its footprint. Where the
changes of others keep away from it, the work answers as it would alone and changes what
it would change alone. Directories may be shared: whoever finds one missing makes it, and
whoever puts something into it leaves the present time on it.
-/

set_option autoImplicit false

namespace Trainyard

/-- The keys that a piece of work depends on. -/
structure Footprint where
  /-- The files it writes; it may look at them before. -/
  own : Key → Prop
  /-- The directories it makes if they are missing, and puts something into. -/
  dirs : Key → Prop
  /-- What it only looks at. -/
  seen : Key → Prop
  /-- The directories below which it works, by their paths. -/
  bases : Path → Prop

namespace Footprint

def Allows (F : Footprint) (now : Nat) (k : Key) (m : Mark) : Prop :=
  (F.own k ∧ ∃ b, m = .file b now) ∨ (F.dirs k ∧ m = .directory now)

def Ready (F : Footprint) (fs : FileSystem) : Prop := ∀ p, F.bases p → fs.Enters p

end Footprint

namespace FileSystem

structure Same (fs fs' : FileSystem) : Prop where
  working : fs'.working = fs.working
  now : fs'.now = fs.now
  mark : ∀ k, fs'.mark? k = fs.mark? k

/-! ## Growing -/

structure Grows (fs fs' : FileSystem) : Prop where
  working : fs'.working = fs.working
  now : fs'.now = fs.now
  stays : ∀ k, blocks (fs.item? k) = true → blocks (fs'.item? k) = true
  keeps : ∀ k, fs.item? k = some .directory →
    fs'.mark? k = fs.mark? k ∨ fs'.mark? k = some (.directory fs.now)
  fills : ∀ k n, fs.mark? (k ++ [n]) = none → fs'.mark? (k ++ [n]) ≠ none →
    fs'.mark? k = some (.directory fs.now)

namespace Grows

variable {fs fs₁ fs₂ : FileSystem}

theorem refl (fs : FileSystem) : Grows fs fs :=
  ⟨rfl, rfl, fun _ => id, fun _ _ => .inl rfl, fun _ _ hnone hne => absurd hnone hne⟩

theorem directory (h : Grows fs fs₁) {k : Key} (hk : fs.item? k = some .directory) :
    fs₁.item? k = some .directory := by
  rcases h.keeps k hk with hsame | hnow
  · rw [item?_congr hsame, hk]
  · rw [item?_of_mark? hnow, Mark.item_directory]

theorem none_of_none (h : Grows fs fs₁) {k : Key} (hnone : fs₁.mark? k = none) :
    fs.mark? k = none := by
  cases hmark : fs.mark? k with
  | none => rfl
  | some m =>
    cases m with
    | directory t =>
      have hdir := h.directory (by rw [item?_of_mark? hmark, Mark.item_directory])
      simp [item?_eq_none.2 hnone] at hdir
    | file b t =>
      have hstays := h.stays k (by rw [item?_of_mark? hmark]; rfl)
      simp [item?_eq_none.2 hnone, blocks] at hstays

theorem trans (h : Grows fs fs₁) (h' : Grows fs₁ fs₂) : Grows fs fs₂ := by
  refine ⟨h'.working.trans h.working, h'.now.trans h.now, fun k hk => h'.stays k (h.stays k hk),
    fun k hk => ?_, fun k n hnone hne => ?_⟩
  · rcases h'.keeps k (h.directory hk) with hsame | hnow
    · rw [hsame]
      exact h.keeps k hk
    · rw [hnow, h.now]
      exact .inr rfl
  · by_cases hmid : fs₁.mark? (k ++ [n]) = none
    · rw [h'.fills k n hmid hne, h.now]
    · have hfilled := h.fills k n hnone hmid
      have hdir : fs₁.item? k = some .directory := by
        rw [item?_of_mark? hfilled, Mark.item_directory]
      rcases h'.keeps k hdir with hsame | hnow
      · rw [hsame, hfilled]
      · rw [hnow, h.now]

theorem ready (h : Grows fs fs₁) {F : Footprint} (hready : F.Ready fs) : F.Ready fs₁ :=
  fun p hp => (hready p hp).mono h.working fun _ => h.directory

end Grows

/-! ## Two sides -/

variable {F : Footprint} {fs fs₁ fs₂ fs' fs₁' fs₂' : FileSystem}

/-- What happened between the first file system and the second keeps away from a footprint. -/
structure Beside (F : Footprint) (fs fs' : FileSystem) : Prop extends Grows fs fs' where
  fixed : ∀ k, F.own k ∨ F.seen k →
    fs.item? k = some .directory ∨ fs'.mark? k = fs.mark? k
  shared : ∀ k, F.dirs k → fs.item? k = some .directory ∨ fs'.mark? k = fs.mark? k ∨
    (fs.mark? k = none ∧ fs'.mark? k = some (.directory fs.now))
  enters : F.Ready fs

/-- The same changes, within a footprint, on two sides. -/
structure Alike (F : Footprint) (fs fs₁ fs' fs₁' : FileSystem) : Prop where
  grows : Grows fs fs₁
  working : fs₁'.working = fs'.working
  now : fs₁'.now = fs'.now
  mark : ∀ k, (fs₁.mark? k = fs.mark? k ∧ fs₁'.mark? k = fs'.mark? k) ∨
    ∃ m, F.Allows fs.now k m ∧ fs₁.mark? k = some m ∧ fs₁'.mark? k = some m

theorem Alike.refl (F : Footprint) (fs fs' : FileSystem) : Alike F fs fs fs' fs' :=
  ⟨.refl fs, rfl, rfl, fun _ => .inl ⟨rfl, rfl⟩⟩

theorem Alike.trans (h : Alike F fs fs₁ fs' fs₁') (h' : Alike F fs₁ fs₂ fs₁' fs₂') :
    Alike F fs fs₂ fs' fs₂' := by
  refine ⟨h.grows.trans h'.grows, h'.working.trans h.working, h'.now.trans h.now, fun k => ?_⟩
  rcases h'.mark k with ⟨hsame, hsame'⟩ | ⟨m, hm, hset, hset'⟩
  · rw [hsame, hsame']
    exact h.mark k
  · rw [h.grows.now] at hm
    exact .inr ⟨m, hm, hset, hset'⟩

theorem Alike.left (h : Alike F fs fs₁ fs' fs₁') : Alike F fs fs₁ fs fs₁ :=
  ⟨h.grows, h.grows.working, h.grows.now, fun k =>
    (h.mark k).imp (fun hsame => ⟨hsame.1, hsame.1⟩) fun ⟨m, hm, hset, _⟩ => ⟨m, hm, hset, hset⟩⟩

section Beside

theorem Beside.refl (h : F.Ready fs) : Beside F fs fs :=
  ⟨.refl fs, fun _ _ => .inr rfl, fun _ _ => .inr (.inl rfl), h⟩

theorem Beside.item_eq (h : Beside F fs fs') {k : Key} (hk : F.own k ∨ F.seen k) :
    fs'.item? k = fs.item? k := by
  rcases h.fixed k hk with hdir | hsame
  · rw [h.directory hdir, hdir]
  · exact item?_congr hsame

theorem Beside.blocks_eq (h : Beside F fs fs') {k : Key} (hk : F.dirs k) :
    blocks (fs'.item? k) = blocks (fs.item? k) := by
  rcases h.shared k hk with hdir | hsame | ⟨hnone, hmade⟩
  · rw [h.directory hdir, hdir]
  · rw [item?_congr hsame]
  · rw [item?_of_mark? hmade, item?_eq_none.2 hnone]
    rfl

theorem Beside.enters_right (h : Beside F fs fs') : F.Ready fs' := h.toGrows.ready h.enters

theorem Beside.filled (h : Beside F fs fs') (ha : Alike F fs fs₁ fs' fs₁') {k : Key}
    (hfilled : fs'.mark? k = some (.directory fs.now)) :
    fs₁'.mark? k = some (.directory fs.now) := by
  rcases ha.mark k with ⟨-, hsame'⟩ | ⟨m, ⟨hown, b, rfl⟩ | ⟨-, rfl⟩, hset, hset'⟩
  · rw [hsame', hfilled]
  · -- no file is written where there is a directory
    have hdir : fs.item? k = some .directory := by
      rw [← h.item_eq (.inl hown), item?_of_mark? hfilled, Mark.item_directory]
    have hstill := ha.grows.directory hdir
    rw [item?_of_mark? hset] at hstill
    simp at hstill
  · exact hset'

theorem Beside.alike (h : Beside F fs fs') (ha : Alike F fs fs₁ fs' fs₁') :
    Beside F fs₁ fs₁' := by
  have hnow : fs₁.now = fs.now := ha.grows.now
  refine ⟨⟨?_, ?_, fun k hk => ?_, fun k hk => ?_, fun k n hnone hne => ?_⟩, fun k hk => ?_,
    fun k hk => ?_, ha.grows.ready h.enters⟩
  · rw [ha.working, h.working, ha.grows.working]
  · rw [ha.now, h.now, hnow]
  · rcases ha.mark k with ⟨hsame, hsame'⟩ | ⟨m, -, hset, hset'⟩
    · rw [item?_congr hsame] at hk
      rw [item?_congr hsame']
      exact h.stays k hk
    · rw [item?_of_mark? hset] at hk
      rw [item?_of_mark? hset']
      exact hk
  · rcases ha.mark k with ⟨hsame, hsame'⟩ | ⟨m, -, hset, hset'⟩
    · rw [item?_congr hsame] at hk
      rw [hsame, hsame', hnow]
      exact h.keeps k hk
    · exact .inl (hset'.trans hset.symm)
  · rw [hnow]
    -- the new name was there before on the second side, so its directory has the present time
    rcases ha.mark (k ++ [n]) with ⟨hsame, hsame'⟩ | ⟨m, -, hset, -⟩
    · exact h.filled ha (h.fills k n (hsame ▸ hnone) (hsame' ▸ hne))
    · simp [hset] at hnone
  · rcases ha.mark k with ⟨hsame, hsame'⟩ | ⟨m, -, hset, hset'⟩
    · rw [hsame, hsame', item?_congr hsame]
      exact h.fixed k hk
    · exact .inr (hset'.trans hset.symm)
  · rcases ha.mark k with ⟨hsame, hsame'⟩ | ⟨m, -, hset, hset'⟩
    · rw [hsame, hsame', item?_congr hsame, hnow]
      exact h.shared k hk
    · exact .inr (.inl (hset'.trans hset.symm))

theorem Beside.grows_right (h : Beside F fs fs') (ha : Alike F fs fs₁ fs' fs₁') :
    Grows fs' fs₁' := by
  refine ⟨ha.working, ha.now, fun k hk => ?_, fun k hk => ?_, fun k n hnone hne => ?_⟩
  · rcases ha.mark k with ⟨-, hsame'⟩ | ⟨m, ⟨-, b, rfl⟩ | ⟨hdirs, rfl⟩, hset, hset'⟩
    · rw [item?_congr hsame']
      exact hk
    · rw [item?_of_mark? hset']
      rfl
    · rw [h.blocks_eq hdirs] at hk
      have hstays := ha.grows.stays k hk
      rw [item?_of_mark? hset] at hstays
      simp [blocks] at hstays
  · rcases ha.mark k with ⟨-, hsame'⟩ | ⟨m, ⟨hown, b, rfl⟩ | ⟨-, rfl⟩, hset, hset'⟩
    · exact .inl hsame'
    · rw [h.item_eq (.inl hown)] at hk
      have hstill := ha.grows.directory hk
      rw [item?_of_mark? hset] at hstill
      simp at hstill
    · exact .inr (by rw [hset', h.now])
  · rw [h.now]
    rcases ha.mark (k ++ [n]) with ⟨-, hsame'⟩ | ⟨m, -, hset, -⟩
    · exact absurd (hsame'.trans hnone) hne
    · -- what is missing on the second side is missing on the first
      have hmissing := h.none_of_none hnone
      have hfilled := ha.grows.fills k n hmissing (by simp [hset])
      rcases ha.mark k with ⟨hsame, hsame'⟩ | ⟨m, -, hset, hset'⟩
      · have hdir : fs.item? k = some .directory := by
          rw [← item?_congr hsame, item?_of_mark? hfilled, Mark.item_directory]
        rw [hsame']
        rcases h.keeps k hdir with hkept | hnow
        · rw [hkept, ← hsame, hfilled]
        · exact hnow
      · rw [hset', ← hset, hfilled]

end Beside

/-- What one piece of work looks at or writes is changed by another one only where there are
directories. -/
def Apart (fs : FileSystem) (F G : Footprint) : Prop :=
  ∀ k, F.own k ∨ F.seen k → G.own k ∨ G.dirs k → fs.item? k = some .directory

/-- Work that is done beside other work keeps away from all that is apart from it, however far
either has come. -/
theorem Beside.step {G : Footprint} {gs : FileSystem} (hG : Beside G gs fs') (hF : Beside F fs fs')
    (ha : Alike F fs fs₁ fs' fs₁') {fs₀ : FileSystem} (hgs : Grows fs₀ gs)
    (hGF : Apart fs₀ G F) (hFG : Apart fs₀ F G) : Beside G gs fs₁' := by
  have hgrows := hF.grows_right ha
  refine ⟨hG.toGrows.trans hgrows, fun k hk => ?_, fun k hk => ?_, hG.enters⟩
  · rcases ha.mark k with ⟨-, hsame'⟩ | ⟨m, hm, -, -⟩
    · rw [hsame']
      exact hG.fixed k hk
    · exact .inl (hgs.directory (hGF k hk (hm.imp (·.1) (·.1))))
  · rcases ha.mark k with ⟨-, hsame'⟩ | ⟨m, ⟨hown, -⟩ | ⟨hdirs, rfl⟩, -, hset'⟩
    · rw [hsame']
      exact hG.shared k hk
    · exact .inl (hgs.directory (hFG k (.inl hown) (.inr hk)))
    · cases hmark : gs.mark? k with
      | none => exact .inr (.inr ⟨rfl, by rw [hset', ← hF.now, hG.now]⟩)
      | some m =>
        cases m with
        | directory t => exact .inl (by rw [item?_of_mark? hmark, Mark.item_directory])
        | file b t =>
          have hstays := hgrows.stays k (hG.stays k (by rw [item?_of_mark? hmark]; rfl))
          rw [item?_of_mark? hset'] at hstays
          simp [blocks] at hstays

/-! ## Single changes on two sides -/

section Changes

variable {names : List String} {name : String} {base p : Path}

theorem Clears.grows {keys : List Key} (h : Clears fs fs₁ keys) : Grows fs fs₁ := by
  refine ⟨h.working, h.now, fun k hk => ?_, fun k _ => ?_, fun k n hnone hne => ?_⟩
  · rw [h.item, if_neg fun hmem => by simp [h.clear k hmem] at hk]
    exact hk
  · by_cases hlacks : fs.Lacks keys k
    · exact .inr (h.made k hlacks)
    · exact .inl (h.same k hlacks)
  · have hmem : k ++ [n] ∈ keys := by
      by_cases hlacks : fs.Lacks keys (k ++ [n])
      · rcases hlacks with ⟨hmem, -⟩ | ⟨m, hm, -⟩
        · exact hmem
        · refine (h.rooted _ m hm).resolve_right fun hdir => ?_
          simp [item?_eq_none.2 hnone] at hdir
      · exact absurd ((h.same _ hlacks).trans hnone) hne
    exact h.made k (.inr ⟨n, hmem, item?_eq_none.2 hnone⟩)

theorem Beside.alike_clears (h : Beside F fs fs') {keys : List Key} (hc : Clears fs fs₁ keys)
    (hc' : Clears fs' fs₁' keys) (hdirs : ∀ k ∈ keys, F.dirs k)
    (habove : ∀ k n, k ++ [n] ∈ keys → F.dirs k) : Alike F fs fs₁ fs' fs₁' := by
  have hnone {k : Key} (hmissing : fs'.item? k = none) : fs.item? k = none :=
    item?_eq_none.2 (h.none_of_none (item?_eq_none.1 hmissing))
  -- what is missing on the second side is missing on the first
  have hlacks {k : Key} (hk : fs'.Lacks keys k) : fs.Lacks keys k := by
    rcases hk with ⟨hmem, hmissing⟩ | ⟨n, hmem, hmissing⟩
    · exact .inl ⟨hmem, hnone hmissing⟩
    · exact .inr ⟨n, hmem, hnone hmissing⟩
  refine ⟨hc.grows, hc'.working, hc'.now, fun k => ?_⟩
  by_cases hmissing : fs.Lacks keys k
  · have hk : F.dirs k := by
      rcases hmissing with ⟨hmem, -⟩ | ⟨n, hmem, -⟩
      · exact hdirs k hmem
      · exact habove k n hmem
    refine .inr ⟨.directory fs.now, .inr ⟨hk, rfl⟩, hc.made k hmissing, ?_⟩
    by_cases hmissing' : fs'.Lacks keys k
    · rw [hc'.made k hmissing', h.now]
    · -- another made it, at the present time
      rw [hc'.same k hmissing']
      rcases hmissing with ⟨hmem, hitem⟩ | ⟨n, hmem, hitem⟩
      · rcases h.shared k hk with hdir | hsame | ⟨-, hmade⟩
        · simp [hitem] at hdir
        · refine absurd (.inl ⟨hmem, ?_⟩) hmissing'
          rw [item?_congr hsame, hitem]
        · exact hmade
      · refine h.fills k n (item?_eq_none.1 hitem) fun hitem' => ?_
        exact hmissing' (.inr ⟨n, hmem, item?_eq_none.2 hitem'⟩)
  · exact .inl ⟨hc.same k hmissing, hc'.same k fun hmissing' => hmissing (hlacks hmissing')⟩

/-- Making directories below a base comes to the same on both sides. -/
theorem Beside.makeDirectories (h : Beside F fs fs') (hbase : F.bases base)
    (hplain : ∀ n ∈ names, Path.Plain n) (hne : names ≠ [])
    (hdirs : ∀ below, below <+: names → F.dirs (base.key fs.working ++ below)) :
    (fs'.makeDirectories (base.descend names)).1 = (fs.makeDirectories (base.descend names)).1 ∧
      Alike F fs (fs.makeDirectories (base.descend names)).2 fs'
        (fs'.makeDirectories (base.descend names)).2 := by
  cases hp : refusal .nulInName (base.descend names) with
  | some e =>
    have hempty : (base.descend names).isEmpty = false := by
      obtain ⟨front, last, rfl⟩ := List.eq_nil_or_concat names |>.resolve_left hne
      rw [List.concat_eq_append] at hplain ⊢
      rw [Path.descend_append, Path.isEmpty_child (hplain last (by simp))]
    rw [makeDirectories_of_refused hempty hp, makeDirectories_of_refused hempty hp]
    exact ⟨rfl, .refl F fs fs'⟩
  | none =>
    obtain ⟨hanswer, hclears⟩ := makeDirectories_descend (h.enters base hbase) hplain hne hp
    obtain ⟨hanswer', hclears'⟩ := makeDirectories_descend (h.enters_right base hbase) hplain hne hp
    have hsame : clearing fs'.item? (base.key fs'.working) names =
        clearing fs.item? (base.key fs.working) names := by
      rw [h.working]
      exact clearing_congr fun below hbelow _ => h.blocks_eq (hdirs below hbelow)
    rw [hsame] at hanswer' hclears'
    refine ⟨hanswer'.trans hanswer.symm, h.alike_clears hclears hclears' ?_ ?_⟩
    · intro k hk
      obtain ⟨below, hbelow, -, rfl⟩ := clearing_keys hk
      exact hdirs below hbelow
    · intro k n hk
      obtain ⟨below, hbelow, hnil, heq⟩ := clearing_keys hk
      obtain ⟨front, last, rfl⟩ := List.eq_nil_or_concat below |>.resolve_left hnil
      rw [List.concat_eq_append] at hbelow heq
      rw [← List.append_assoc] at heq
      rw [List.append_inj_left' heq rfl]
      exact hdirs front ((List.prefix_append front [last]).trans hbelow)

theorem Beside.alike_puts (h : Beside F fs fs') {parent : Key} {b : ByteArray} {stamps : Bool}
    (hputs : Puts fs fs₁ parent name (.file b fs.now) stamps)
    (hputs' : Puts fs' fs₁' parent name (.file b fs'.now) stamps)
    (hnew : fs.item? (parent ++ [name]) = none → stamps = true) (hown : F.own (parent ++ [name]))
    (hdirs : F.dirs parent) : Alike F fs fs₁ fs' fs₁' := by
  refine ⟨⟨hputs.working, hputs.now, fun k hk => ?_, fun k hk => ?_, fun k n hnone hne => ?_⟩,
    hputs'.working, hputs'.now, fun k => ?_⟩
  · rw [hputs.item]
    split
    · rfl
    · exact hk
  · rw [hputs.mark]
    split
    next heq => exact absurd (heq ▸ hk) hputs.free
    next =>
      split
      next => exact .inr rfl
      next => exact .inl rfl
  · rw [hputs.mark] at hne
    have hsplit : k ++ [n] = parent ++ [name] := by
      by_contra hother
      rw [if_neg hother] at hne
      split at hne
      next hparent =>
        have hdir := hputs.directory
        rw [← hparent.1, item?_eq_none.2 hnone] at hdir
        simp at hdir
      next => exact hne hnone
    obtain ⟨rfl, hlast⟩ := List.append_inj' hsplit rfl
    cases hlast
    rw [hputs.mark, if_neg (by simp), if_pos ⟨rfl, hnew (item?_eq_none.2 hnone)⟩]
  · rw [hputs.mark, hputs'.mark]
    by_cases hfile : k = parent ++ [name]
    · rw [if_pos hfile, if_pos hfile, h.now]
      exact .inr ⟨_, .inl ⟨hfile ▸ hown, b, rfl⟩, rfl, rfl⟩
    · rw [if_neg hfile, if_neg hfile]
      by_cases hparent : k = parent ∧ stamps = true
      · rw [if_pos hparent, if_pos hparent, h.now]
        exact .inr ⟨_, .inr ⟨hparent.1 ▸ hdirs, rfl⟩, rfl, rfl⟩
      · rw [if_neg hparent, if_neg hparent]
        exact .inl ⟨rfl, rfl⟩

def SameChange (F : Footprint) (fs fs' : FileSystem)
    (change change' : Except OsError FileSystem) : Prop :=
  (∃ e, change = .error e ∧ change' = .error e) ∨
    ∃ fs₁ fs₁', change = .ok fs₁ ∧ change' = .ok fs₁' ∧ Alike F fs fs₁ fs' fs₁'

/-- Putting a file of its own into a directory comes to the same on both sides. -/
theorem Beside.put (h : Beside F fs fs') (stamps : Option Item → Bool) {nul : OsError}
    {b : ByteArray} {change change' : Except OsError FileSystem}
    (hstamps : stamps none = true) (hown : F.own (p.key fs.working ++ [name]))
    (hdirs : F.dirs (p.key fs.working))
    (hchange : let there := fs.item? (p.key fs.working ++ [name])
      (∃ e, admits nul (p.child name) name there = .error e ∧ change = .error e) ∨
        ∃ fs₁, admits nul (p.child name) name there = .ok () ∧ change = .ok fs₁ ∧
          Puts fs fs₁ (p.key fs.working) name (.file b fs.now) (stamps there))
    (hchange' : let there := fs'.item? (p.key fs'.working ++ [name])
      (∃ e, admits nul (p.child name) name there = .error e ∧ change' = .error e) ∨
        ∃ fs₁, admits nul (p.child name) name there = .ok () ∧ change' = .ok fs₁ ∧
          Puts fs' fs₁ (p.key fs'.working) name (.file b fs'.now) (stamps there)) :
    SameChange F fs fs' change change' := by
  have hthere := h.item_eq (.inl hown)
  rw [h.working, hthere] at hchange'
  rcases hchange with ⟨e, hadmits, hfails⟩ | ⟨fs₁, hadmits, hok, hputs⟩
  · rcases hchange' with ⟨e', hadmits', hfails'⟩ | ⟨fs₁', hadmits', -⟩
    · rw [hadmits] at hadmits'
      cases hadmits'
      exact .inl ⟨e, hfails, hfails'⟩
    · simp [hadmits] at hadmits'
  · rcases hchange' with ⟨e', hadmits', -⟩ | ⟨fs₁', -, hok', hputs'⟩
    · simp [hadmits] at hadmits'
    · refine .inr ⟨fs₁, fs₁', hok, hok', h.alike_puts hputs hputs' (fun hnone => ?_) hown hdirs⟩
      rw [hnone, hstamps]

theorem Beside.write (h : Beside F fs fs') (hname : Path.Plain name) (b : ByteArray)
    (henters : fs.Enters p) (henters' : fs'.Enters p) (hown : F.own (p.key fs.working ++ [name]))
    (hdirs : F.dirs (p.key fs.working)) :
    SameChange F fs fs' (fs.write (p.child name) b) (fs'.write (p.child name) b) :=
  h.put Option.isNone rfl hown hdirs (write_child henters hname b)
    (write_child henters' hname b)

theorem Beside.replace (h : Beside F fs fs') (hname : Path.Plain name) (b : ByteArray)
    (henters : fs.Enters p) (henters' : fs'.Enters p) (hown : F.own (p.key fs.working ++ [name]))
    (hdirs : F.dirs (p.key fs.working)) :
    SameChange F fs fs' (fs.replace (p.child name) b) (fs'.replace (p.child name) b) :=
  h.put (fun _ => true) rfl hown hdirs (replace_child henters hname b)
    (replace_child henters' hname b)

theorem grows_stamp (fs : FileSystem) (k : Key) : Grows fs (fs.stamp k) := by
  have hframe := evolves_stamp (fun _ _ => False) fs k
  refine ⟨hframe.working, hframe.now, fun k' hk' => ?_, fun k' => hframe.times k', ?_⟩
  · rw [item?_stamp]
    exact hk'
  · intro k' n hnone hne
    refine absurd (item?_eq_none.1 ?_) hne
    rw [item?_stamp]
    exact item?_eq_none.2 hnone

theorem Beside.alike_stamp (h : Beside F fs fs') (henters : fs.Enters p)
    (henters' : fs'.Enters p) (hdirs : F.dirs (p.key fs.working)) :
    Alike F fs (fs.stamp (p.key fs.working)) fs' (fs'.stamp (p.key fs.working)) := by
  have hmark := mark?_stamp_of_enters henters
  have hmark' := mark?_stamp_of_enters henters'
  rw [h.working, h.now] at hmark'
  refine ⟨grows_stamp fs _, rfl, rfl, fun k => ?_⟩
  rw [hmark, hmark']
  by_cases hk : k = p.key fs.working
  · rw [if_pos hk, if_pos hk]
    exact .inr ⟨_, .inr ⟨hk ▸ hdirs, rfl⟩, rfl, rfl⟩
  · rw [if_neg hk, if_neg hk]
    exact .inl ⟨rfl, rfl⟩

theorem Beside.disturb (h : Beside F fs fs') (henters : fs.Enters p) (henters' : fs'.Enters p)
    (hnul : '\x00' ∉ p.text.toList) (hdirs : F.dirs (p.key fs.working)) :
    SameChange F fs fs' (fs.disturb p) (fs'.disturb p) := by
  rw [disturb_of_enters henters hnul, disturb_of_enters henters' hnul, h.working]
  split
  · exact .inl ⟨_, rfl, rfl⟩
  · exact .inr ⟨_, _, rfl, rfl, h.alike_stamp henters henters' hdirs⟩

/-- Reading a file of its own gives the same on both sides. A failure may have another cause. -/
theorem Beside.read (h : Beside F fs fs') (hbase : F.bases base)
    (hplain : ∀ n ∈ names, Path.Plain n) (hne : names ≠ [])
    (hown : F.own (base.key fs.working ++ names)) :
    (fs'.read (base.descend names)).toOption = (fs.read (base.descend names)).toOption := by
  have hiff (b : ByteArray) :
      fs'.read (base.descend names) = .ok b ↔ fs.read (base.descend names) = .ok b := by
    rw [read_descend (h.enters_right base hbase) hplain hne, read_descend (h.enters base hbase) hplain hne,
      h.working, h.item_eq (.inl hown)]
  cases hread : fs.read (base.descend names) with
  | ok b => rw [(hiff b).2 hread]
  | error e =>
    cases hread' : fs'.read (base.descend names) with
    | ok b => simp [(hiff b).1 hread'] at hread
    | error e' => rfl

/-- What is only looked at shows the same on both sides, failures included. -/
theorem Beside.view (h : Beside F fs fs') (hseen : ∀ k ∈ p.way fs.working, F.seen k) :
    fs'.view p = fs.view p :=
  view_congr h.working fun k hk => h.item_eq (.inr (hseen k hk))

end Changes

end FileSystem

end Trainyard
