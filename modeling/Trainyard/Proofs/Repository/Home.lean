import Trainyard.Proofs.FileSystem.Unblocked
import Trainyard.Proofs.Job
import Trainyard.Repository

/-!
# A home remembers the last source of a name

Sources and the directories of packages share one tree. The names of directories are segments and
have no dot, the names of sources end in one extension, so neither is ever in the way of the
other. A home that is vacant at the start holds for every list of segments the source that was
saved last, whichever spelling of the name it was saved under.
-/

set_option autoImplicit false

namespace Trainyard

namespace Place

theorem mem_text_within {place : Place} {dir : Path} {extension : String} {c : Char}
    (h : c ∈ (place.within dir extension).text.toList) :
    c = '/' ∨ c ∈ dir.text.toList ∨ (∃ segment ∈ place.segments, c ∈ segment.toList) ∨
      c ∈ (ending extension).toList := by
  rcases Path.mem_text_join h with hslash | hdir | hrelative
  · exact .inl hslash
  · exact .inr (.inl hdir)
  · rw [text_relative, String.toList_append, List.mem_append] at hrelative
    rcases hrelative with hsegments | hending
    · rcases Text.mem_intercalate hsegments with hslash | hsegment
      · exact .inl (by simpa using hslash)
      · exact .inr (.inr (.inl hsegment))
    · exact .inr (.inr (.inr hending))

end Place

namespace Home

/-! ## Saving and asking -/

structure Deposit where
  name : String
  source : String
  time : Nat

def stock (home : Home) : List Deposit → Site → List (Except FetchError Path) × Site
  | [], s => ([], s)
  | d :: ds, s =>
    let saved := (home.save d.name d.source).on (s.atTime d.time)
    let rest := home.stock ds saved.2
    (saved.1 :: rest.1, rest.2)

def latest (deposits : List Deposit) (segments : List String) : Option String :=
  (deposits.reverse.find? fun d => Place.segmentsOf d.name = segments).map Deposit.source

/-- The path that is reported as too long: that of the directory, if already that is. -/
def overlong (path : Path) : Path :=
  match path.parent? with
  | some dir => if dir.text.utf8ByteSize < FileSystem.pathLimit then path else dir
  | none => path

def verdict (home : Home) (name : String) : Except FetchError Path :=
  match home.pathOf name with
  | .error e => .error (.unplaceable e)
  | .ok path =>
    if path.text.utf8ByteSize < FileSystem.pathLimit then .ok path
    else .error (.io (overlong path) .nameTooLong)

def answer (home : Home) (deposits : List Deposit) (name : String) : Except FetchError String :=
  match home.pathOf name with
  | .error e => .error (.unplaceable e)
  | .ok path =>
    if path.text.utf8ByteSize < FileSystem.pathLimit then
      match latest deposits (Place.segmentsOf name) with
      | some source => .ok source
      | none => .error (.notFound name)
    else .error (.io path .nameTooLong)

theorem stock_concat (home : Home) (deposits : List Deposit) (d : Deposit) (s : Site) :
    home.stock (deposits ++ [d]) s =
      let before := home.stock deposits s
      let saved := (home.save d.name d.source).on (before.2.atTime d.time)
      (before.1 ++ [saved.1], saved.2) := by
  induction deposits generalizing s with
  | nil => rfl
  | cons e deposits ih => simp only [List.cons_append, stock, ih]

theorem latest_concat (deposits : List Deposit) (d : Deposit) (segments : List String) :
    latest (deposits ++ [d]) segments =
      if Place.segmentsOf d.name = segments then some d.source else latest deposits segments := by
  rw [latest, List.reverse_append, List.reverse_singleton, List.singleton_append, List.find?_cons]
  by_cases h : Place.segmentsOf d.name = segments <;> simp [h, latest]

/-- A source changes the answers for its own segments only. -/
theorem answer_concat (home : Home) (deposits : List Deposit) {d : Deposit} {name : String}
    (h : Place.segmentsOf name ≠ Place.segmentsOf d.name) :
    home.answer (deposits ++ [d]) name = home.answer deposits name := by
  rw [answer, answer, latest_concat, if_neg h.symm]

/-! ## Homes and names that the system takes -/

structure Fits (name : String) : Prop where
  nul : '\x00' ∉ name.toList
  limits : ∀ segment ∈ Place.segmentsOf name, segment.utf8ByteSize ≤ 252

def Takes (home : Home) (place : Place) : Prop :=
  (place.within home.dir "eo").text.utf8ByteSize < FileSystem.pathLimit

/-- A home that can be made. Its path passes no file, and if it passes names below the home
itself, none of them is that of a source. -/
structure Usable (home : Home) (fs : FileSystem) : Prop where
  nul : '\x00' ∉ home.dir.text.toList
  unblocked : fs.Unblocked home.dir
  apart : ∀ below, home.dir.key fs.working ++ below ∈ home.dir.way fs.working →
    ∀ n ∈ below, ∀ stem, n ≠ stem ++ ".eo"

structure Vacant (home : Home) (fs : FileSystem) : Prop extends Usable home fs where
  vacant : ∀ name below, fs.item? (home.dir.key fs.working ++ name :: below) = none

structure Stocked (home : Home) (held : List String → Option String) (fs : FileSystem) : Prop
    extends Usable home fs where
  source : ∀ (place : Place) v, place.Proper → home.Takes place →
    held place.segments = some v →
    ∃ t, fs.stat (place.within home.dir "eo") = .ok (.file v.toUTF8 t)
  only : ∀ name below b t,
    fs.item? (home.dir.key fs.working ++ name :: below) = some (.file b t) →
    ∃ place : Place, place.Proper ∧ home.Takes place ∧ held place.segments ≠ none ∧
      name :: below = Place.componentsOf ".eo" place.segments
  directories : ∀ below, fs.item? (home.dir.key fs.working ++ below) = some .directory →
    ∀ n ∈ below, ∀ stem, n ≠ stem ++ ".eo"

section Stocked

variable {home : Home} {held : List String → Option String} {fs : FileSystem} {name : String}
  {place : Place}

theorem Vacant.stocked (h : home.Vacant fs) : home.Stocked (fun _ => none) fs := by
  refine ⟨h.toUsable, fun _ _ _ _ hv => (by cases hv), fun name below b t hitem => ?_, ?_⟩
  · rw [h.vacant] at hitem
    cases hitem
  · intro below hitem
    cases below with
    | nil => simp
    | cons name below =>
      rw [h.vacant] at hitem
      cases hitem

theorem Fits.within (h : Fits name) (hplace : Place.ofName name = .ok place) :
    ∃ front last, (∀ n ∈ front, Path.Stem n) ∧ Path.Plain (last ++ ".eo") ∧
      (∀ n ∈ front, n.utf8ByteSize ≤ FileSystem.nameLimit) ∧
      (last ++ ".eo").utf8ByteSize ≤ FileSystem.nameLimit ∧
      ∀ dir : Path, place.within dir "eo" = dir.descend (front ++ [last ++ ".eo"]) := by
  obtain ⟨front, last, hsegments, hstems, hlast, hwithin⟩ :=
    Place.exists_file (Place.proper_of_ofName hplace) (show '/' ∉ "eo".toList by decide)
  have hlimits := h.limits
  rw [← Place.segments_of_ofName hplace, hsegments, List.forall_mem_append,
    List.forall_mem_singleton] at hlimits
  refine ⟨front, last, hstems, hlast, fun n hn => ?_, ?_, hwithin⟩
  · exact Nat.le_trans (hlimits.1 n hn) (by decide)
  · have hext : ".eo".utf8ByteSize = 3 := by decide
    rw [String.utf8ByteSize_append, hext]
    exact Nat.add_le_add_right hlimits.2 3

theorem Fits.nul_within (h : Fits name) (hplace : Place.ofName name = .ok place)
    (hnul : '\x00' ∉ home.dir.text.toList) :
    '\x00' ∉ (place.within home.dir "eo").text.toList := by
  intro hmem
  rcases Place.mem_text_within hmem with hslash | hdir | ⟨segment, hsegment, hc⟩ | hending
  · exact absurd hslash (by decide)
  · exact hnul hdir
  · rw [Place.segments_of_ofName hplace] at hsegment
    exact h.nul (Place.subset_of_mem_segmentsOf hsegment hc)
  · exact absurd hending (by decide)

theorem pathOf_of_ofName (home : Home) (hplace : Place.ofName name = .ok place) :
    home.pathOf name = .ok (place.within home.dir "eo") := by
  rw [pathOf, hplace]
  rfl

theorem pathOf_of_unplaceable (home : Home) {e : PlaceError}
    (hplace : Place.ofName name = .error e) : home.pathOf name = .error e := by
  rw [pathOf, hplace]
  rfl

theorem Stocked.free (h : home.Stocked held fs) {front : List String}
    (hstems : ∀ n ∈ front, Path.Stem n) :
    FileSystem.Free fs.item? (home.dir.key fs.working) front := by
  intro below hbelow hne
  obtain ⟨first, rest, rfl⟩ := List.exists_cons_of_ne_nil hne
  cases hitem : fs.item? (home.dir.key fs.working ++ first :: rest) with
  | none => rfl
  | some item =>
    cases item with
    | directory => rfl
    | file b t =>
      obtain ⟨place, hp, -, -, hcomponents⟩ := h.only first rest b t hitem
      obtain ⟨before, last, hsegments⟩ :=
        List.eq_nil_or_concat place.segments |>.resolve_left hp.nonempty
      rw [List.concat_eq_append] at hsegments
      rw [hsegments, Place.componentsOf_append] at hcomponents
      have hmem : last ++ ".eo" ∈ front := by
        apply hbelow.subset
        rw [hcomponents]
        simp
      exact absurd (hstems _ hmem).dot (by simp)

theorem Stocked.way (h : home.Stocked held fs) (hfits : Fits name)
    (hplace : Place.ofName name = .ok place) :
    ∃ front last, (∀ n ∈ front, Path.Stem n) ∧ Path.Plain (last ++ ".eo") ∧
      (last ++ ".eo").utf8ByteSize ≤ FileSystem.nameLimit ∧
      place.within home.dir "eo" = (home.dir.descend front).child (last ++ ".eo") ∧
      fs.Unblocked (home.dir.descend front) := by
  obtain ⟨front, last, hstems, hlast, hlimits, hlimit, hwithin⟩ := hfits.within hplace
  refine ⟨front, last, hstems, hlast, hlimit, ?_, ?_⟩
  · rw [hwithin, Path.descend_append]
  · exact h.unblocked.descend (fun n hn => (hstems n hn).plain) hlimits (h.free hstems)

theorem Stocked.item (h : home.Stocked held fs) (hp : place.Proper) (htakes : home.Takes place) :
    (∃ v, held place.segments = some v ∧
        ∃ t, fs.stat (place.within home.dir "eo") = .ok (.file v.toUTF8 t)) ∨
      held place.segments = none ∧
        fs.item? ((place.within home.dir "eo").key fs.working) = none := by
  cases hv : held place.segments with
  | some v => exact .inl ⟨v, rfl, h.source place v hp htakes hv⟩
  | none =>
    refine .inr ⟨rfl, ?_⟩
    rw [Place.key_within _ _ hp (by decide)]
    show fs.item? (home.dir.key fs.working ++ Place.componentsOf ".eo" place.segments) = none
    obtain ⟨front, last, hsegments⟩ :=
      List.eq_nil_or_concat place.segments |>.resolve_left hp.nonempty
    rw [List.concat_eq_append] at hsegments
    have hlast := Place.componentsOf_append ".eo" front last
    rw [← hsegments] at hlast
    cases hitem : fs.item? (home.dir.key fs.working ++ Place.componentsOf ".eo" place.segments) with
    | none => rfl
    | some item =>
      cases item with
      | directory =>
        have hnot := h.directories _ hitem (last ++ ".eo") (by rw [hlast]; simp) last
        exact absurd rfl hnot
      | file b t =>
        obtain ⟨first, rest, hfirst⟩ : ∃ first rest,
            Place.componentsOf ".eo" place.segments = first :: rest := by
          apply List.exists_cons_of_ne_nil
          rw [hlast]
          simp
        rw [hfirst] at hitem
        obtain ⟨other, -, -, hheld, hsame⟩ := h.only first rest b t hitem
        rw [← hfirst] at hsame
        rw [← Place.componentsOf_injective hsame] at hheld
        exact absurd hv hheld

end Stocked

/-! ## Asking a stocked home -/

section Get

variable {home : Home} {held : List String → Option String} {fs : FileSystem} {name : String}
  {place : Place}

theorem get_of_source (hplace : Place.ofName name = .ok place) {source : String} {t : Nat}
    (h : fs.stat (place.within home.dir "eo") = .ok (.file source.toUTF8 t)) :
    home.get fs name = .ok source := by
  have hread : fs.readText (place.within home.dir "eo") = .ok source :=
    FileSystem.readText_eq_ok.2 ⟨_, t, h, Bytes.fromUTF8?_toUTF8 source⟩
  simp only [get, pathOf_of_ofName home hplace, hread]

theorem get_of_stat_error (hplace : Place.ofName name = .ok place) {e : OsError}
    (h : fs.stat (place.within home.dir "eo") = .error e) : home.get fs name =
      .error (if e = .notFound then .notFound name else .io (place.within home.dir "eo") e) := by
  have hread : fs.readText (place.within home.dir "eo") = .error e := by
    rw [FileSystem.readText, FileSystem.read, h]
    rfl
  cases e <;> simp [get, pathOf_of_ofName home hplace, hread]

theorem get_of_long (hfits : Fits name) (hplace : Place.ofName name = .ok place)
    (hnul : '\x00' ∉ home.dir.text.toList) (hlong : ¬ home.Takes place) :
    home.get fs name = .error (.io (place.within home.dir "eo") .nameTooLong) := by
  have hstat := FileSystem.stat_of_long fs (hfits.nul_within hplace hnul) (Nat.not_lt.1 hlong)
  rw [get_of_stat_error hplace hstat, if_neg (by decide)]

theorem Stocked.stat_eq_notFound (h : home.Stocked held fs) (hfits : Fits name)
    (hplace : Place.ofName name = .ok place) (htakes : home.Takes place)
    (hnone : fs.item? ((place.within home.dir "eo").key fs.working) = none) :
    fs.stat (place.within home.dir "eo") = .error .notFound := by
  obtain ⟨front, last, -, hlast, hlimit, hpath, hunblocked⟩ := h.way hfits hplace
  have hnul := hfits.nul_within hplace h.nul
  have hshort : (place.within home.dir "eo").text.utf8ByteSize < FileSystem.pathLimit := htakes
  rw [hpath] at hnone hnul hshort ⊢
  have hend := hnone
  rw [Path.key_child hlast] at hend
  have hchild := hunblocked.child hlast hlimit (by rw [hend]; rfl)
  exact FileSystem.stat_of_view_error (hchild.view_eq_notFound hnul hshort hnone)

theorem Stocked.get {deposits : List Deposit} (h : home.Stocked (latest deposits) fs)
    (hfits : Fits name) : home.get fs name = home.answer deposits name := by
  cases hplace : Place.ofName name with
  | error e => rw [Home.get, answer, pathOf_of_unplaceable home hplace]
  | ok place =>
    rw [answer, pathOf_of_ofName home hplace]
    dsimp only
    split
    next htakes =>
      rw [← Place.segments_of_ofName hplace]
      rcases h.item (Place.proper_of_ofName hplace) htakes with
        ⟨v, hheld, t, hstat⟩ | ⟨hheld, hnone⟩
      · rw [hheld, get_of_source hplace hstat]
      · have hstat := h.stat_eq_notFound hfits hplace htakes hnone
        rw [hheld, get_of_stat_error hplace hstat, if_pos rfl]
    next hlong => exact get_of_long hfits hplace h.nul hlong

theorem Stocked.contains_iff (h : home.Stocked held fs) (name : String) :
    home.contains fs name = true ↔ ∃ source, home.get fs name = .ok source := by
  cases hplace : Place.ofName name with
  | error e =>
    rw [contains, Home.get, pathOf_of_unplaceable home hplace]
    simp
  | ok place =>
    rw [contains, pathOf_of_ofName home hplace]
    have hstat (e : Entry) (hstat : fs.stat (place.within home.dir "eo") = .ok e) :
        ∃ (v : String) (t : Nat),
          fs.stat (place.within home.dir "eo") = .ok (.file v.toUTF8 t) := by
      have htakes : home.Takes place := FileSystem.short_of_stat hstat
      rcases h.item (Place.proper_of_ofName hplace) htakes with ⟨v, -, t, hfile⟩ | ⟨-, hnone⟩
      · exact ⟨v, t, hfile⟩
      · rw [FileSystem.item?_eq_map, FileSystem.stat_ok hstat] at hnone
        cases hnone
    cases hfound : fs.stat (place.within home.dir "eo") with
    | ok e =>
      obtain ⟨v, t, hfile⟩ := hstat e hfound
      rw [get_of_source hplace hfile]
      simp [FileSystem.isFile, hfile]
    | error cause =>
      rw [get_of_stat_error hplace hfound]
      simp [FileSystem.isFile, hfound]

theorem Stocked.contains_congr (h : home.Stocked held fs) {held' : List String → Option String}
    {fs' : FileSystem} (h' : home.Stocked held' fs')
    (hget : home.get fs' name = home.get fs name) :
    home.contains fs' name = home.contains fs name := by
  rw [Bool.eq_iff_iff, h.contains_iff, h'.contains_iff, hget]

end Get

/-! ## Saving into a stocked home -/

section Save

variable {home : Home} {held held' : List String → Option String} {fs fs' made : FileSystem}
  {name : String} {place : Place} {s : Site}

theorem save_of_unplaceable {e : PlaceError} (h : home.pathOf name = .error e) (source : String)
    (s : Site) : (home.save name source).on s = (.error (.unplaceable e), s) := by
  rw [save, h]
  rfl

/-- The source of a place is not on the way to the home, and its directories are not either. -/
theorem Usable.off (h : home.Usable fs) {front : List String} (hstems : ∀ n ∈ front, Path.Stem n)
    (last : String) :
    home.dir.key fs.working ++ (front ++ [last ++ ".eo"]) ∉
      (home.dir.descend front).way fs.working := by
  intro hmem
  rcases FileSystem.mem_way_descend (fun n hn => (hstems n hn).plain) hmem with
    hway | ⟨below, hbelow, -, heq⟩
  · exact h.apart _ hway (last ++ ".eo") (by simp) last rfl
  · rw [List.append_cancel_left_eq] at heq
    have hlength := hbelow.length_le
    rw [← heq, List.length_append, List.length_singleton] at hlength
    omega

theorem Stocked.opened (h : home.Stocked held fs) {front : List String}
    (hstems : ∀ n ∈ front, Path.Stem n)
    (hopens : FileSystem.Opens ((home.dir.descend front).way fs.working) fs made)
    (hevolves : fs.Evolves (fun _ _ => False) made) : home.Stocked held made := by
  refine ⟨⟨h.nul, ⟨?_, h.unblocked.limits, ?_⟩, ?_⟩, ?_, ?_, ?_⟩
  · rw [hopens.working]
    exact hopens.toGrows.directory h.unblocked.origin
  · intro k hk
    rw [hopens.working] at hk
    rw [hopens.blocks]
    exact h.unblocked.way k hk
  · rw [hopens.working]
    exact h.apart
  · intro q v hq htakes hv
    obtain ⟨t, hstat⟩ := h.source q v hq htakes hv
    exact ⟨t, hevolves.stat_file (fun _ hnot => hnot) hstat⟩
  · intro first rest b t hitem
    rw [hopens.working] at hitem
    rcases hopens.marks (home.dir.key fs.working ++ first :: rest) with hsame | ⟨hmade, -⟩
    · rw [FileSystem.item?_congr hsame] at hitem
      exact h.only first rest b t hitem
    · rw [FileSystem.item?_of_mark? hmade] at hitem
      cases hitem
  · intro below hitem n hn
    rw [hopens.working] at hitem
    rcases hopens.marks (home.dir.key fs.working ++ below) with hsame | ⟨-, hwas | ⟨-, hway⟩⟩
    · rw [FileSystem.item?_congr hsame] at hitem
      exact h.directories below hitem n hn
    · exact h.directories below hwas n hn
    · rcases FileSystem.mem_way_descend (fun n hn => (hstems n hn).plain) hway with
        hway | ⟨below', hbelow, -, hkey⟩
      · exact h.apart below hway n hn
      · rw [List.append_cancel_left_eq] at hkey
        rintro stem rfl
        exact absurd (hstems _ (hbelow.subset (hkey ▸ hn))).dot (by simp)

theorem Stocked.put (h : home.Stocked held fs) (hp : place.Proper) (htakes : home.Takes place)
    {source : String}
    (hput : ∀ q : Place, q.Proper → held' q.segments =
      if q = place then some source else held q.segments)
    (hwrite : fs.write (place.within home.dir "eo") source.toUTF8 = .ok fs') :
    home.Stocked held' fs' := by
  have hset := (FileSystem.write_ok hwrite).1
  have hkey : (place.within home.dir "eo").key fs.working =
      home.dir.key fs.working ++ Place.componentsOf ".eo" place.segments :=
    Place.key_within _ _ hp (by decide)
  obtain ⟨front, last, hsegments⟩ :=
    List.eq_nil_or_concat place.segments |>.resolve_left hp.nonempty
  rw [List.concat_eq_append] at hsegments
  have hlast : last ++ ".eo" ∈ Place.componentsOf ".eo" place.segments := by
    rw [hsegments, Place.componentsOf_append]
    simp
  refine ⟨⟨h.nul, ⟨?_, h.unblocked.limits, ?_⟩, ?_⟩, ?_, ?_, ?_⟩
  · rw [hset.working]
    exact (FileSystem.Evolves.of_setsFile hset).directory h.unblocked.origin
  · intro k hk
    rw [hset.working] at hk
    rw [hset.item, hkey, if_neg]
    · exact h.unblocked.way k hk
    · rintro rfl
      exact h.apart _ hk (last ++ ".eo") hlast last rfl
  · rw [hset.working]
    exact h.apart
  · intro q v hq hqtakes hv
    rw [hput q hq] at hv
    split at hv
    next heq =>
      cases hv
      rw [heq]
      exact ⟨_, FileSystem.stat_write hwrite⟩
    next hne =>
      obtain ⟨t, hold⟩ := h.source q v hq hqtakes hv
      refine ⟨t, (FileSystem.Evolves.of_setsFile hset).stat_file (fun _ hwrites => hne ?_) hold⟩
      exact Place.eq_of_key_within hq hp (by decide) hwrites.1
  · intro first rest b t hitem
    rw [hset.working, hset.item, hkey] at hitem
    split at hitem
    next heq =>
      refine ⟨place, hp, htakes, ?_, List.append_cancel_left heq⟩
      rw [hput place hp, if_pos rfl]
      exact Option.some_ne_none source
    next =>
      obtain ⟨q, hq, hqtakes, hheld, hnames⟩ := h.only first rest b t hitem
      refine ⟨q, hq, hqtakes, ?_, hnames⟩
      rw [hput q hq]
      split
      · exact Option.some_ne_none source
      · exact hheld
  · intro below hitem
    rw [hset.working, hset.item] at hitem
    split at hitem
    next => cases hitem
    next => exact h.directories below hitem

theorem Stocked.congr (h : home.Stocked held fs)
    (hsame : ∀ q : Place, q.Proper → home.Takes q → held' q.segments = held q.segments) :
    home.Stocked held' fs := by
  refine ⟨h.toUsable, fun q v hq htakes hv => ?_, fun first rest b t hitem => ?_, h.directories⟩
  · rw [hsame q hq htakes] at hv
    exact h.source q v hq htakes hv
  · obtain ⟨q, hq, htakes, hheld, hnames⟩ := h.only first rest b t hitem
    exact ⟨q, hq, htakes, by rwa [hsame q hq htakes], hnames⟩

theorem Stocked.atTime (h : home.Stocked held s.files) (t : Nat) :
    home.Stocked held (s.atTime t).files := by
  refine ⟨⟨h.nul, ⟨h.unblocked.origin, h.unblocked.limits, h.unblocked.way⟩, h.apart⟩, ?_, h.only,
    h.directories⟩
  intro q v hq htakes hv
  rw [Site.stat_atTime]
  exact h.source q v hq htakes hv

section Placeable

variable (h : home.Stocked held s.files) (hfits : Fits name)
  (hplace : Place.ofName name = .ok place) {source : String}

include h hfits hplace

theorem Stocked.save (htakes : home.Takes place)
    (hput : ∀ q : Place, q.Proper → held' q.segments =
      if q = place then some source else held q.segments) :
    ∃ s₁, (home.save name source).on s = (.ok (place.within home.dir "eo"), s₁) ∧
      home.Stocked held' s₁.files := by
  obtain ⟨front, last, hstems, hlast, hlimit, hpath, hunblocked⟩ := h.way hfits hplace
  have hkey : (home.dir.descend front).key s.files.working ++ [last ++ ".eo"] =
      home.dir.key s.files.working ++ (front ++ [last ++ ".eo"]) := by
    rw [Path.key_descend fun n hn => (hstems n hn).plain, List.append_assoc]
  have hend : s.files.item? ((home.dir.descend front).key s.files.working ++ [last ++ ".eo"]) ≠
      some .directory := by
    rw [hkey]
    intro hdirectory
    exact h.directories _ hdirectory (last ++ ".eo") (by simp) last rfl
  have hoff := h.off hstems last
  rw [← hkey] at hoff
  have hshort : (place.within home.dir "eo").text.utf8ByteSize < FileSystem.pathLimit := htakes
  have hnul := hfits.nul_within hplace h.nul
  rw [hpath] at hnul hshort
  obtain ⟨dir, made, fs', hparent, hmade, hwrite, hopens⟩ :=
    hunblocked.write hlast hlimit hnul hshort hend hoff source.toUTF8
  have hevolves := FileSystem.evolves_makeDirectories dir s.files
  rw [hmade] at hevolves
  refine ⟨⟨fs', s.journal.push (.sourceSaved name (place.within home.dir "eo")), s.tally⟩, ?_, ?_⟩
  · simp only [Home.save, Job.writeText, Job.makeParent, Job.on_bind, Job.on_ofExcept,
      pathOf_of_ofName home hplace, mapError_ok, hpath, hparent, Job.on_makeDirectories, hmade,
      Job.on_change, hwrite, Job.on_tell, Job.on_pure]
  · rw [← hpath] at hwrite
    exact (h.opened hstems hopens hevolves).put (Place.proper_of_ofName hplace) htakes hput hwrite

theorem Stocked.save_of_long (hlong : ¬ home.Takes place) (source : String) :
    ∃ s₁, (home.save name source).on s =
        (.error (.io (overlong (place.within home.dir "eo")) .nameTooLong), s₁) ∧
      home.Stocked held s₁.files := by
  obtain ⟨front, last, hstems, hlast, -, hpath, hunblocked⟩ := h.way hfits hplace
  have hnul := hfits.nul_within hplace h.nul
  have hsize := Nat.not_lt.1 hlong
  rw [hpath] at hnul hsize
  obtain ⟨dir, hparent, -, hrefuse, hmake⟩ := hunblocked.makeParent hlast hnul
  by_cases hdir : dir.text.utf8ByteSize < FileSystem.pathLimit
  · obtain ⟨made, hmade, hopens, -⟩ := hmake hdir
    have hevolves := FileSystem.evolves_makeDirectories dir s.files
    rw [hmade] at hevolves
    refine ⟨{ s with files := made }, ?_, h.opened hstems hopens hevolves⟩
    simp only [Home.save, Job.writeText, Job.makeParent, Job.on_bind, Job.on_ofExcept,
      pathOf_of_ofName home hplace, mapError_ok, hpath, hparent, Job.on_makeDirectories, hmade,
      Job.on_change, FileSystem.write_of_long hnul hsize, overlong, if_pos hdir]
  · refine ⟨s, ?_, h⟩
    simp only [Home.save, Job.writeText, Job.makeParent, Job.on_bind, Job.on_ofExcept,
      pathOf_of_ofName home hplace, mapError_ok, hpath, hparent, Job.on_makeDirectories,
      hrefuse (Nat.not_lt.1 hdir), mapError_error, overlong, if_neg hdir]

end Placeable

/-- One more source: whatever becomes of it, the home then holds what was brought last. -/
theorem Stocked.save_next {deposits : List Deposit} (h : home.Stocked (latest deposits) s.files)
    {d : Deposit} (hfits : Fits d.name) :
    ((home.save d.name d.source).on (s.atTime d.time)).1 = home.verdict d.name ∧
      home.Stocked (latest (deposits ++ [d]))
        ((home.save d.name d.source).on (s.atTime d.time)).2.files := by
  have hnow := h.atTime d.time
  cases hplace : Place.ofName d.name with
  | error e =>
    have hpath := pathOf_of_unplaceable home hplace
    rw [save_of_unplaceable hpath, verdict, hpath]
    refine ⟨rfl, hnow.congr fun q hq _ => ?_⟩
    rw [latest_concat, if_neg]
    intro hsegments
    rw [Place.ofName_of_segmentsOf hq hsegments] at hplace
    cases hplace
  | ok place =>
    have hput : ∀ q : Place, q.Proper → latest (deposits ++ [d]) q.segments =
        if q = place then some d.source else latest deposits q.segments := by
      intro q _
      rw [latest_concat, ← Place.segments_of_ofName hplace]
      obtain ⟨segments⟩ := q
      obtain ⟨segments'⟩ := place
      simp only [Place.mk.injEq, eq_comm]
    rw [verdict, pathOf_of_ofName home hplace]
    dsimp only
    split
    next htakes =>
      obtain ⟨s₁, hsave, hstocked⟩ := hnow.save hfits hplace htakes hput
      rw [hsave]
      exact ⟨rfl, hstocked⟩
    next hlong =>
      obtain ⟨s₁, hsave, hstocked⟩ := hnow.save_of_long hfits hplace hlong d.source
      rw [hsave]
      refine ⟨rfl, hstocked.congr fun q hq htakes => ?_⟩
      rw [hput q hq, if_neg]
      rintro rfl
      exact hlong htakes

/-- Any number of sources. -/
theorem Vacant.stock (hvacant : home.Vacant s.files) {deposits : List Deposit}
    (hfits : ∀ d ∈ deposits, Fits d.name) :
    (home.stock deposits s).1 = deposits.map (fun d => home.verdict d.name) ∧
      home.Stocked (latest deposits) (home.stock deposits s).2.files := by
  induction deposits using List.reverseRecOn with
  | nil => exact ⟨rfl, hvacant.stocked⟩
  | append_singleton deposits d ih =>
    rw [List.forall_mem_append, List.forall_mem_singleton] at hfits
    obtain ⟨hanswers, hstocked⟩ := ih hfits.1
    obtain ⟨hanswer, hnext⟩ := hstocked.save_next hfits.2
    rw [stock_concat]
    refine ⟨?_, hnext⟩
    rw [List.map_append, List.map_singleton, ← hanswers, ← hanswer]

end Save

/-! ## The home as a map from segments to sources -/

/-- Each save ends as its name decides, each name is answered with the source brought last under
its segments, and one more save changes no answer but those for its own segments. -/
theorem holds_latest_sources (home : Home) (s : Site) (deposits : List Deposit)
    (hvacant : home.Vacant s.files) (hfits : ∀ d ∈ deposits, Fits d.name) :
    let s₁ := (home.stock deposits s).2
    (home.stock deposits s).1 = deposits.map (fun d => home.verdict d.name) ∧
      (∀ name, Fits name → home.get s₁.files name = home.answer deposits name) ∧
      (∀ name, home.contains s₁.files name = true ↔
        ∃ source, home.get s₁.files name = .ok source) ∧
      ∀ d : Deposit, Fits d.name →
        let saved := (home.save d.name d.source).on (s₁.atTime d.time)
        (∀ e, home.pathOf d.name = .error e →
          saved = (.error (.unplaceable e), s₁.atTime d.time)) ∧
        ∀ name, Fits name → Place.segmentsOf name ≠ Place.segmentsOf d.name →
          home.get saved.2.files name = home.get s₁.files name ∧
            home.contains saved.2.files name = home.contains s₁.files name := by
  intro s₁
  obtain ⟨hanswers, hstocked⟩ := hvacant.stock hfits
  refine ⟨hanswers, fun name hname => hstocked.get hname, hstocked.contains_iff, fun d hd => ?_⟩
  obtain ⟨-, hnext⟩ := hstocked.save_next hd
  refine ⟨fun e he => save_of_unplaceable he d.source _, fun name hname hne => ?_⟩
  have hget : home.get ((home.save d.name d.source).on (s₁.atTime d.time)).2.files name =
      home.get s₁.files name := by
    rw [hnext.get hname, hstocked.get hname, answer_concat home deposits hne]
  exact ⟨hget, hstocked.contains_congr hnext hget⟩

/-- Packages and objects under the same names, one of them saved again under another spelling. The
home is reached through a directory that is not there yet. -/
theorem holds_latest_sources_respelled :
    let home : Home := ⟨⟨"x/../h"⟩⟩
    let s : Site := { files := ⟨.directory [("w", .directory [] 0)] 0, ["w"], 0⟩ }
    let deposits : List Deposit :=
      [⟨"a.b", "1", 1⟩, ⟨"a", "2", 2⟩, ⟨".a..b", "3", 3⟩, ⟨"..", "4", 4⟩, ⟨"a.b.c", "5", 5⟩]
    home.Vacant s.files ∧ (∀ d ∈ deposits, Fits d.name) ∧
      (home.stock deposits s).1 = [.ok ⟨"x/../h/a/b.eo"⟩, .ok ⟨"x/../h/a.eo"⟩,
        .ok ⟨"x/../h/a/b.eo"⟩, .error (.unplaceable (.empty "..")), .ok ⟨"x/../h/a/b/c.eo"⟩] ∧
      home.get (home.stock deposits s).2.files "a.b" = .ok "3" ∧
      home.get (home.stock deposits s).2.files "a" = .ok "2" ∧
      home.get (home.stock deposits s).2.files "b" = .error (.notFound "b") := by
  intro home s deposits
  have horigin : home.dir.origin s.files.working = ["w"] := by decide
  have hway : home.dir.way s.files.working = [["w"], ["w", "x"], ["w", "h"]] := by decide
  have hkey : home.dir.key s.files.working = ["w", "h"] := by decide
  have hvacant : home.Vacant s.files := by
    refine ⟨⟨by decide, ⟨?_, by decide, by decide⟩, ?_⟩, ?_⟩
    · rw [horigin]
      rfl
    · intro below hbelow
      rw [hway, hkey] at hbelow
      obtain rfl : below = [] := by simpa using hbelow
      simp
    · intro name below
      rw [hkey]
      rfl
  have hfits : ∀ d ∈ deposits, Fits d.name := by
    have hsmall : ∀ d ∈ deposits, '\x00' ∉ d.name.toList ∧
        ∀ segment ∈ Place.segmentsOf d.name, segment.utf8ByteSize ≤ 252 := by decide
    exact fun d hd => ⟨(hsmall d hd).1, (hsmall d hd).2⟩
  obtain ⟨hanswers, hget, -⟩ := holds_latest_sources home s deposits hvacant hfits
  refine ⟨hvacant, hfits, ?_, ?_, ?_, ?_⟩
  · rw [hanswers]
    decide
  · rw [hget "a.b" ⟨by decide, by decide⟩]
    decide
  · rw [hget "a" ⟨by decide, by decide⟩]
    decide
  · rw [hget "b" ⟨by decide, by decide⟩]
    decide

theorem save_of_unmade {home : Home} {name : String} {path dir : Path} {e : OsError} {s : Site}
    (hpath : home.pathOf name = .ok path) (hparent : path.parent? = some dir)
    (hmade : (s.files.makeDirectories dir).1 = .error e) (source : String) :
    ((home.save name source).on s).1 = .error (.io dir e) := by
  have hparts : (Job.makeParent FetchError.io path).on s =
      (.error (.io dir e), { s with files := (s.files.makeDirectories dir).2 }) := by
    rw [Job.makeParent, hparent]
    dsimp only
    rw [Job.on_makeDirectories, hmade]
    rfl
  simp only [save, hpath, Job.writeText, Job.on_bind, Job.on_ofExcept, Except.mapError, hparts]

theorem save_of_long_name {name : String} {s : Site} (hname : Path.Plain name)
    (hlong : FileSystem.nameLimit < name.utf8ByteSize)
    (hshort : name.utf8ByteSize < FileSystem.pathLimit) (hnul : '\x00' ∉ name.toList)
    (hworking : s.files.item? s.files.working = some .directory) (source : String) :
    ((save ⟨⟨name⟩⟩ "a" source).on s).1 = .error (.io ⟨name⟩ .nameTooLong) := by
  have hbase : (Path.mk "").descend [name] = ⟨name⟩ := by
    rcases Path.text_child hname ⟨""⟩ with ⟨htext, -⟩ | ⟨-, hempty, -⟩
    · rw [String.empty_append] at htext
      exact congrArg Path.mk htext
    · exact absurd hempty (by decide)
  have hplain : ∀ n ∈ [name], Path.Plain n := by simpa using hname
  have hparent : ((Path.mk name).child "a.eo").parent? = some ⟨name⟩ := by
    have heo : Path.Plain "a.eo" := ⟨by decide, by decide, by decide, by decide⟩
    have h := Path.parent?_descend hplain ⟨""⟩ heo (by simp)
    rw [Path.descend_append, hbase] at h
    exact h
  have henters : s.files.Enters ⟨""⟩ := ⟨hworking, rfl⟩
  have hmade : (s.files.makeDirectories ⟨name⟩).1 = .error .nameTooLong := by
    have hrefusal : FileSystem.refusal .nulInName ⟨name⟩ = none :=
      FileSystem.refusal_eq_none hnul hshort
    rw [← hbase] at hrefusal
    have h := (FileSystem.makeDirectories_descend henters hplain (by simp) hrefusal).1
    rw [hbase, FileSystem.clearing, if_pos hlong] at h
    exact h
  exact save_of_unmade rfl hparent hmade source
/-- Names that fit may make a path that is too long; a home that is absent may lead through its own
sources, or to sources that were there before; and the home's own path may have a name that is too
long or a NUL in it. -/
theorem latest_source_not_held :
    let place : Place := .ofSizes (List.replicate 17 252 ++ [252])
    let bare : Site := { files := ⟨.directory [] 0, [], 0⟩ }
    let used : Site := { files := ⟨.directory
      [("h", .directory [("a.eo", .file "0".toUTF8 0)] 0)] 0, [], 0⟩ }
    (Vacant ⟨⟨"h"⟩⟩ bare.files ∧ Fits (".".intercalate place.segments) ∧
      Place.ofName (".".intercalate place.segments) = .ok place ∧
      ∃ p, ((save ⟨⟨"h"⟩⟩ (".".intercalate place.segments) "1").on bare).1 =
        .error (.io p .nameTooLong)) ∧
    (bare.files.stat ⟨"h/a.eo/.."⟩ = .error .notFound ∧
      ((save ⟨⟨"h/a.eo/.."⟩⟩ "a" "1").on bare).1 =
        .error (.io ⟨"h/a.eo/../a.eo"⟩ .isADirectory)) ∧
    (used.files.stat ⟨"x/../h"⟩ = .error .notFound ∧
      get ⟨⟨"x/../h"⟩⟩ ((save ⟨⟨"x/../h"⟩⟩ "b" "1").on used).2.files "a" = .ok "0") ∧
    ((save ⟨⟨Path.letters 256⟩⟩ "a" "1").on bare).1 =
      .error (.io ⟨Path.letters 256⟩ .nameTooLong) ∧
    ((save ⟨⟨"h\x00"⟩⟩ "a" "1").on bare).1 = .error (.io ⟨"h\x00"⟩ .nulInName) := by
  intro place bare used
  have hpos : ∀ n ∈ List.replicate 17 252 ++ [252], n ≠ 0 := by decide
  have hsizes : ∀ n ∈ List.replicate 17 252 ++ [252], n ≤ 252 := by decide
  have hproper : place.Proper := Place.proper_ofSizes (by simp) hpos
  have hplace := Place.ofName_intercalate hproper
  have hvacant : Vacant ⟨⟨"h"⟩⟩ bare.files := by
    have hway : (Path.mk "h").way [] = [[], ["h"]] := by decide
    have hkey : (Path.mk "h").key [] = ["h"] := by decide
    refine ⟨⟨by decide, ⟨rfl, by decide, by decide⟩, ?_⟩, fun _ _ => rfl⟩
    intro below hbelow
    rw [show bare.files.working = [] from rfl, hway, hkey] at hbelow
    obtain rfl : below = [] := by simpa using hbelow
    simp
  have hfits : Fits (".".intercalate place.segments) := by
    refine ⟨fun hmem => ?_, fun segment hmem => ?_⟩
    · rcases Text.mem_intercalate hmem with hdot | ⟨segment, hsegment, hc⟩
      · exact absurd hdot (by decide)
      · obtain ⟨n, -, rfl⟩ := List.mem_map.1 hsegment
        exact Path.not_mem_letters (by decide) n hc
    · rw [← Place.segments_of_ofName hplace] at hmem
      obtain ⟨n, hn, rfl⟩ := List.mem_map.1 hmem
      rw [Path.utf8ByteSize_letters]
      exact hsizes n hn
  have hlong : ¬ Takes ⟨⟨"h"⟩⟩ place := by
    have hext : (Place.ending "eo").utf8ByteSize = 3 := by decide
    rw [Takes, Place.utf8ByteSize_within_ofSizes hpos (by decide) (by decide) (by decide), hext]
    decide
  refine ⟨⟨hvacant, hfits, hplace, ?_⟩, ⟨rfl, by decide +kernel⟩, ⟨rfl, by decide +kernel⟩, ?_,
    by decide +kernel⟩
  · obtain ⟨s₁, hsave, -⟩ := hvacant.stocked.save_of_long hfits hplace hlong "1"
    rw [hsave]
    exact ⟨_, rfl⟩
  · have hsize := Path.utf8ByteSize_letters 256
    apply save_of_long_name (Path.stem_letters (by decide)).plain
    · rw [hsize]
      decide
    · rw [hsize]
      decide
    · exact Path.not_mem_letters (by decide) 256
    · rfl

end Home

end Trainyard
