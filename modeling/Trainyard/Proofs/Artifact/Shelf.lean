import Trainyard.Proofs.Artifact
import Trainyard.Proofs.FileSystem.Storing

/-!
# A store is a shelf of artifacts

A shelf holds a volume at some of the relative paths: who produced it, its payload, and when it
was put there. Stores with one root, used one after the other at any times, answer as a shelf
does that is empty at the start. The files below the root are the volumes and nothing else. A
volume that is only read, or that a second payload was offered for, stays as it is.
-/

set_option autoImplicit false

namespace Trainyard.Artifact

/-! ## Requests and replies -/

inductive Verb where
  | write (payload : Bytes)
  | writeOnce (payload : Bytes)
  | read
  | inspect

def Verb.payload? : Verb → Option Bytes
  | .write payload => some payload
  | .writeOnce payload => some payload
  | .read => none
  | .inspect => none

structure Request where
  producer : String
  relative : Path
  verb : Verb
  time : Nat

inductive Reply where
  | written (path : Path)
  | stored (fresh : Bool)
  | found (payload : Option Bytes)
  | inspected (outcome : Except CacheError Bytes)

def Request.job (root : Path) (r : Request) : Job CacheError Reply :=
  let store : Store := ⟨root, r.producer⟩
  match r.verb with
  | .write payload => do
    let path ← store.write r.relative payload
    pure (.written path)
  | .writeOnce payload => do
    let fresh ← store.writeOnce r.relative payload
    pure (.stored fresh)
  | .read => do
    let payload ← store.read r.relative
    pure (.found payload)
  | .inspect => do
    let fs ← Job.files
    pure (.inspected (store.inspect fs r.relative))

def serve (root : Path) : List Request → Site → Except CacheError (List Reply) × Site
  | [], s => (.ok [], s)
  | r :: rs, s =>
    match (r.job root).on (s.atTime r.time) with
    | (.error e, s₁) => (.error e, s₁)
    | (.ok reply, s₁) =>
      match serve root rs s₁ with
      | (.error e, s₂) => (.error e, s₂)
      | (.ok replies, s₂) => (.ok (reply :: replies), s₂)

/-! ## The shelf -/

structure Volume where
  producer : String
  payload : Bytes
  time : Nat

def Volume.item (v : Volume) : Item := .file (encode v.producer v.payload).pack v.time

def Shelf : Type := Path → Option Volume

namespace Shelf

def empty : Shelf := fun _ => none

def put (shelf : Shelf) (r : Request) (payload : Bytes) : Shelf := fun relative =>
  if relative = r.relative then some ⟨r.producer, payload, r.time⟩ else shelf relative

def after (shelf : Shelf) (r : Request) : Shelf :=
  match r.verb with
  | .write payload => shelf.put r payload
  | .writeOnce payload =>
    match shelf r.relative with
    | some _ => shelf
    | none => shelf.put r payload
  | .read => shelf
  | .inspect => shelf

def shows (shelf : Shelf) (root relative : Path) : Except CacheError Bytes :=
  match shelf relative with
  | some v => .ok v.payload
  | none => .error (.io (root.join relative) .notFound)

def reply (shelf : Shelf) (root : Path) (r : Request) : Reply :=
  match r.verb with
  | .write _ => .written (root.join r.relative)
  | .writeOnce _ => .stored (shelf r.relative).isNone
  | .read => .found ((shelf r.relative).map Volume.payload)
  | .inspect => .inspected (shelf.shows root r.relative)

def replies (root : Path) : Shelf → List Request → List Reply
  | _, [] => []
  | shelf, r :: rs => shelf.reply root r :: replies root (shelf.after r) rs

end Shelf

/-! ## Relative paths -/

def Named (relative : Path) : Prop :=
  ∃ name place, Place.ofName name = .ok place ∧ relative = place.relative "tree"

section Named

variable {relative other : Path}

theorem Named.split (h : Named relative) : ∃ front stem,
    relative.components = front ++ [stem ++ ".tree"] ∧ (∀ n ∈ front, Path.Stem n) ∧
    Path.Plain (stem ++ ".tree") ∧
    ∀ root : Path, root.join relative = root.descend (front ++ [stem ++ ".tree"]) := by
  obtain ⟨name, place, hplace, rfl⟩ := h
  have hp := Place.proper_of_ofName hplace
  have hslash : '/' ∉ "tree".toList := by decide
  obtain ⟨front, stem, hsegments, hfront, hname, hwithin⟩ := Place.exists_file hp hslash
  refine ⟨front, stem, ?_, hfront, hname, hwithin⟩
  rw [Place.components_relative hp hslash, hsegments]
  exact Place.componentsOf_append _ front stem

theorem Named.text (h : Named relative) : relative.text = "/".intercalate relative.components := by
  obtain ⟨name, place, hplace, rfl⟩ := h
  have hp := Place.proper_of_ofName hplace
  rw [Place.components_relative hp (by decide), ← Place.pieces_relative hp (by decide),
    Path.intercalate_pieces]

theorem Named.eq_of_components (h : Named relative) (h' : Named other)
    (heq : relative.components = other.components) : relative = other := by
  have htext : relative.text = other.text := by rw [h.text, h'.text, heq]
  cases relative
  cases other
  rw [Path.mk.injEq]
  exact htext

end Named

/-- A request that stays within the limits of the system. One that stores something makes a
passing file first, whose path from the root is to be short enough too. -/
structure Request.Fits (working : Key) (root : Path) (r : Request) : Prop where
  named : Named r.relative
  nul : ∀ c ∈ r.relative.components, '\x00' ∉ c.toList
  limits : ∀ c ∈ r.relative.components, c.utf8ByteSize ≤ FileSystem.nameLimit
  header : ∀ payload, r.verb.payload? = some payload →
    (header r.producer payload).length < Nat.pow 256 4
  short : (root.join r.relative).text.utf8ByteSize < FileSystem.pathLimit
  passing : r.verb.payload? ≠ none → ∀ dir, (root.join r.relative).parent? = some dir →
    (FileSystem.passing working dir).text.utf8ByteSize < FileSystem.pathLimit

theorem Request.fits_of_brief {working : Key} {root : Path} {r : Request} (hp : Brief r.producer)
    (hnamed : Named r.relative) (hnul : ∀ c ∈ r.relative.components, '\x00' ∉ c.toList)
    (hlimits : ∀ c ∈ r.relative.components, c.utf8ByteSize ≤ FileSystem.nameLimit)
    (hshort : (root.join r.relative).text.utf8ByteSize < FileSystem.pathLimit)
    (hpassing : ∀ dir ∈ (root.join r.relative).parent?,
      (FileSystem.passing working dir).text.utf8ByteSize < FileSystem.pathLimit) :
    r.Fits working root :=
  ⟨hnamed, hnul, hlimits, fun payload _ => length_header_lt hp payload, hshort,
    fun _ dir hdir => hpassing dir hdir⟩

/-! ## The files are those of the shelf -/

structure Shelf.Stands (shelf : Shelf) (root : Path) (fs : FileSystem) : Prop where
  enters : fs.Enters root
  named : ∀ relative v, shelf relative = some v → Named relative
  header : ∀ relative v, shelf relative = some v →
    (header v.producer v.payload).length < Nat.pow 256 4
  volume : ∀ relative v, shelf relative = some v →
    fs.item? (root.key fs.working ++ relative.components) = some v.item
  only : ∀ names b t, fs.item? (root.key fs.working ++ names) = some (.file b t) →
    ∃ relative v, shelf relative = some v ∧ names = relative.components
  stems : ∀ names, fs.item? (root.key fs.working ++ names) = some .directory →
    ∀ n ∈ names, '.' ∉ n.toList

namespace Shelf

variable {shelf : Shelf} {root relative : Path} {fs fs' : FileSystem} {front : List String}
  {stem : String}

theorem Stands.free (h : shelf.Stands root fs) (hstems : ∀ n ∈ front, Path.Stem n) :
    FileSystem.Free fs.item? (root.key fs.working) front := by
  intro below hbelow _
  cases hitem : fs.item? (root.key fs.working ++ below) with
  | none => rfl
  | some i =>
    cases i with
    | directory => rfl
    | file b t =>
      obtain ⟨relative, v, hv, hnames⟩ := h.only below b t hitem
      obtain ⟨before, stem, hsplit, -⟩ := (h.named relative v hv).split
      have hmem : stem ++ ".tree" ∈ front := by
        apply hbelow.subset
        rw [hnames, hsplit]
        simp
      exact absurd (hstems _ hmem).dot (by simp)

theorem Stands.item (h : shelf.Stands root fs) (hn : Named relative) :
    fs.item? (root.key fs.working ++ relative.components) = (shelf relative).map Volume.item := by
  cases hv : shelf relative with
  | some v => exact h.volume relative v hv
  | none =>
    cases hitem : fs.item? (root.key fs.working ++ relative.components) with
    | none => rfl
    | some i =>
      cases i with
      | file b t =>
        obtain ⟨other, v, hother, hsame⟩ := h.only _ b t hitem
        rw [hn.eq_of_components (h.named other v hother) hsame, hother] at hv
        cases hv
      | directory =>
        obtain ⟨front, stem, hsplit, -⟩ := hn.split
        have hdot := h.stems _ hitem (stem ++ ".tree") (by rw [hsplit]; simp)
        exact absurd hdot (by simp)

theorem Stands.ne_directory (h : shelf.Stands root fs) (hn : Named relative) :
    fs.item? (root.key fs.working ++ relative.components) ≠ some .directory := by
  rw [h.item hn]
  cases shelf relative <;> simp [Volume.item]

variable {working : Key} {r : Request}

theorem Stands.takes (h : shelf.Stands root fs) (hnul : '\x00' ∉ root.text.toList)
    (hr : r.Fits working root) (hsplit : r.relative.components = front ++ [stem ++ ".tree"])
    (hstems : ∀ n ∈ front, Path.Stem n) (hlast : Path.Plain (stem ++ ".tree"))
    (hjoin : root.join r.relative = root.descend (front ++ [stem ++ ".tree"])) :
    fs.Takes root front (stem ++ ".tree") := by
  have hlimits := hr.limits
  rw [hsplit, List.forall_mem_append, List.forall_mem_singleton] at hlimits
  refine ⟨h.enters, fun n hn => (hstems n hn).plain, hlast, hlimits.1, hlimits.2, ?_, ?_,
    h.free hstems⟩
  · intro hmem
    rw [← hjoin] at hmem
    rcases Path.mem_text_join hmem with hslash | hroot | hrelative
    · exact absurd hslash (by decide)
    · exact hnul hroot
    · rw [hr.named.text] at hrelative
      rcases Text.mem_intercalate hrelative with hslash | ⟨c, hc, hnul⟩
      · exact absurd hslash (by decide)
      · exact hr.nul c hc hnul
  · rw [← hjoin]
    exact hr.short

theorem Stands.inspect (h : shelf.Stands root fs) (hnul : '\x00' ∉ root.text.toList)
    (hr : r.Fits working root) (producer : String) :
    Store.inspect ⟨root, producer⟩ fs r.relative = shelf.shows root r.relative := by
  obtain ⟨front, stem, hsplit, hstems, hlast, hjoin⟩ := hr.named.split
  have htakes := h.takes hnul hr hsplit hstems hlast (hjoin root)
  have hitem := h.item hr.named
  rw [shows]
  cases hv : shelf r.relative with
  | some v =>
    rw [hv, hsplit] at hitem
    have hread : fs.read (root.join r.relative) = .ok (encode v.producer v.payload).pack := by
      rw [hjoin]
      exact htakes.read_of_item hitem
    have hdecode : decode (Bytes.unpack (encode v.producer v.payload).pack) = .ok v.payload := by
      rw [Bytes.unpack_pack]
      exact decode_encode_of_length (h.header _ v hv)
    exact Store.inspect_of_read hread hdecode
  | none =>
    rw [hv, hsplit] at hitem
    have hread : fs.read (root.join r.relative) = .error .notFound := by
      rw [hjoin]
      exact htakes.read_eq_notFound hitem
    exact Store.inspect_of_read_error hread

theorem put_eq_some {payload : Bytes} {v : Volume} (h : shelf.put r payload relative = some v) :
    relative = r.relative ∧ v = ⟨r.producer, payload, r.time⟩ ∨
      relative ≠ r.relative ∧ shelf relative = some v := by
  rw [Shelf.put] at h
  split at h
  next heq =>
    cases h
    exact .inl ⟨heq, rfl⟩
  next hne => exact .inr ⟨hne, h⟩

theorem put_self (shelf : Shelf) (r : Request) (payload : Bytes) :
    shelf.put r payload r.relative = some ⟨r.producer, payload, r.time⟩ := if_pos rfl

theorem put_of_ne {payload : Bytes} (h : relative ≠ r.relative) :
    shelf.put r payload relative = shelf relative := if_neg h

theorem Stands.put (h : shelf.Stands root fs) (hr : r.Fits working root) {payload : Bytes}
    (hpayload : r.verb.payload? = some payload) (hnow : fs.now = r.time)
    (hsplit : r.relative.components = front ++ [stem ++ ".tree"])
    (hstems : ∀ n ∈ front, Path.Stem n)
    (hs : FileSystem.Stores fs fs' (root.key fs.working) front (stem ++ ".tree")
      (encode r.producer payload).pack) :
    (shelf.put r payload).Stands root fs' := by
  have hend := h.ne_directory hr.named
  have hput := hs.put
  have hother {names : List String} (hne : names ≠ r.relative.components) :
      root.key fs.working ++ names ≠ root.key fs.working ++ (front ++ [stem ++ ".tree"]) := by
    rwa [Ne, List.append_cancel_left_eq, ← hsplit]
  rw [hsplit] at hend
  refine ⟨?_, ?_, ?_, ?_, ?_, ?_⟩
  · refine h.enters.mono hs.working fun k hk => hs.item_of_ne ?_ hk
    rintro rfl
    exact hend hk
  · intro relative v hv
    rcases put_eq_some hv with ⟨rfl, -⟩ | ⟨-, hold⟩
    · exact hr.named
    · exact h.named relative v hold
  · intro relative v hv
    rcases put_eq_some hv with ⟨-, rfl⟩ | ⟨-, hold⟩
    · exact hr.header payload hpayload
    · exact h.header relative v hold
  · intro relative v hv
    rw [hs.working]
    rcases put_eq_some hv with ⟨rfl, rfl⟩ | ⟨hne, hold⟩
    · rw [hsplit, hput, hnow]
      rfl
    · refine hs.item_of_ne (hother fun heq => hne ?_) (h.volume relative v hold)
      exact (h.named relative v hold).eq_of_components hr.named heq
  · intro names b t hitem
    rw [hs.working] at hitem
    by_cases hnames : names = r.relative.components
    · exact ⟨r.relative, _, put_self shelf r payload, hnames⟩
    · obtain ⟨relative, v, hv, heq⟩ := h.only names b t (hs.file_of_ne (hother hnames) hitem)
      have hne : relative ≠ r.relative := by
        rintro rfl
        exact hnames heq
      exact ⟨relative, v, by rw [put_of_ne hne, hv], heq⟩
  · intro names hitem
    rw [hs.working] at hitem
    by_cases hnames : names = r.relative.components
    · rw [hnames, hsplit, hput] at hitem
      cases hitem
    · rcases hs.other _ (hother hnames) with hsame | ⟨-, -, below, hbelow, heq⟩
      · rw [hsame] at hitem
        exact h.stems names hitem
      · rw [List.append_cancel_left_eq] at heq
        intro n hn
        exact (hstems n (hbelow.subset (heq ▸ hn))).dot

/-! ## Serving requests -/

variable {s : Site}

theorem Stands.write (h : shelf.Stands root s.files) (hnul : '\x00' ∉ root.text.toList)
    (hr : r.Fits s.files.working root) {payload : Bytes}
    (hpayload : r.verb.payload? = some payload) (hnow : s.files.now = r.time) :
    ∃ s₁, (Store.write ⟨root, r.producer⟩ r.relative payload).on s =
        (.ok (root.join r.relative), s₁) ∧ s₁.files.working = s.files.working ∧
      (shelf.put r payload).Stands root s₁.files := by
  obtain ⟨front, stem, hsplit, hstems, hlast, hjoin⟩ := hr.named.split
  have htakes := h.takes hnul hr hsplit hstems hlast (hjoin root)
  have hend := h.ne_directory hr.named
  rw [hsplit] at hend
  have hpassing := hr.passing (by simp [hpayload])
  rw [hjoin] at hpassing
  obtain ⟨dir, made, disturbed, fs', hparent, hmade, hdisturb, hreplace, hstores⟩ :=
    htakes.stores hend hpassing (encode r.producer payload).pack
  rw [← hjoin] at hparent hreplace
  refine ⟨{ s with files := fs' }, ?_, hstores.working,
    h.put hr hpayload hnow hsplit hstems hstores⟩
  rw [Store.on_write]
  simp only [Store.pathOf, hparent, Option.getD_some, hmade, hdisturb, hreplace]

/-- One request: the store answers as the shelf does. -/
theorem Stands.serve_one (h : shelf.Stands root s.files) (hnul : '\x00' ∉ root.text.toList)
    (hr : r.Fits s.files.working root) (hnow : s.files.now = r.time) :
    ∃ s₁, (r.job root).on s = (.ok (shelf.reply root r), s₁) ∧
      s₁.files.working = s.files.working ∧ (shelf.after r).Stands root s₁.files := by
  have hinspect := h.inspect hnul hr r.producer
  obtain ⟨producer, relative, verb, time⟩ := r
  cases verb with
  | write payload =>
    obtain ⟨s₁, hwrite, hworking, hstands⟩ := h.write hnul hr rfl hnow
    refine ⟨s₁, ?_, hworking, hstands⟩
    simp only [Request.job, Job.on_bind, hwrite, Job.on_pure]
    rfl
  | writeOnce payload =>
    cases hv : shelf relative with
    | some v =>
      have hgood : Store.inspect ⟨root, producer⟩ s.files relative = .ok v.payload := by
        rw [hinspect, shows, hv]
      refine ⟨s, ?_, rfl, ?_⟩
      · simp only [Request.job, Job.on_bind, Store.on_writeOnce_of_good hgood, Job.on_pure, reply,
          hv, Option.isNone_some]
      · simpa only [after, hv] using h
    | none =>
      have hbad : Store.inspect ⟨root, producer⟩ s.files relative =
          .error (.io (root.join relative) .notFound) := by
        rw [hinspect, shows, hv]
      obtain ⟨s₁, hwrite, hworking, hstands⟩ := h.write hnul hr rfl hnow
      refine ⟨s₁, ?_, hworking, ?_⟩
      · simp only [Request.job, Job.on_bind, Store.on_writeOnce_of_inspect hbad, hwrite,
          Job.on_pure, reply, hv, Option.isNone_none]
      · simpa only [after, hv] using hstands
  | read =>
    obtain ⟨s₁, hfiles, hread⟩ := Store.on_read (ε := CacheError) ⟨root, producer⟩ relative s
    refine ⟨s₁, ?_, by rw [hfiles], ?_⟩
    · simp only [Request.job, Job.on_bind, hread, Job.on_pure, hinspect, shows, reply]
      cases shelf relative <;> rfl
    · rw [hfiles]
      exact h
  | inspect =>
    refine ⟨s, ?_, rfl, h⟩
    simp only [Request.job, Job.on_bind, Job.on_files, Job.on_pure, hinspect]
    rfl

/-- Any number of requests. -/
theorem Stands.serve (h : shelf.Stands root s.files) (hnul : '\x00' ∉ root.text.toList)
    {requests : List Request} (hfits : ∀ r ∈ requests, r.Fits s.files.working root) :
    ∃ s₁, serve root requests s = (.ok (replies root shelf requests), s₁) ∧
      s₁.files.working = s.files.working ∧
      (requests.foldl after shelf).Stands root s₁.files := by
  induction requests generalizing shelf s with
  | nil => exact ⟨s, rfl, rfl, h⟩
  | cons r requests ih =>
    rw [List.forall_mem_cons] at hfits
    have hnow : shelf.Stands root (s.atTime r.time).files :=
      ⟨⟨h.enters.origin, h.enters.passes⟩, h.named, h.header, h.volume, h.only, h.stems⟩
    obtain ⟨s₁, hone, hworking, hstands⟩ := hnow.serve_one hnul hfits.1 rfl
    obtain ⟨s₂, hrest, hworking', hstands⟩ := ih hstands fun q hq => hworking ▸ hfits.2 q hq
    refine ⟨s₂, ?_, hworking'.trans hworking, hstands⟩
    simp only [Artifact.serve, hone, hrest, replies]

theorem Stands.file_iff (h : shelf.Stands root fs) (names : List String) (b : ByteArray)
    (t : Nat) :
    fs.item? (root.key fs.working ++ names) = some (.file b t) ↔
      ∃ relative v, shelf relative = some v ∧ names = relative.components ∧
        b = (encode v.producer v.payload).pack ∧ t = v.time := by
  constructor
  · intro hitem
    obtain ⟨relative, v, hv, rfl⟩ := h.only names b t hitem
    rw [h.volume relative v hv, Volume.item, Option.some.injEq, Item.file.injEq] at hitem
    exact ⟨relative, v, hv, rfl, hitem.1.symm, hitem.2.symm⟩
  · rintro ⟨relative, v, hv, rfl, rfl, rfl⟩
    exact h.volume relative v hv

structure Vacant (root : Path) (fs : FileSystem) : Prop where
  enters : fs.Enters root
  vacant : ∀ name below, fs.item? (root.key fs.working ++ name :: below) = none

theorem stands_empty (h : Vacant root fs) : empty.Stands root fs := by
  have hnone {P : Path → Volume → Prop} : ∀ relative v, empty relative = some v → P relative v := by
    intro relative v hv
    cases hv
  refine ⟨h.enters, hnone, hnone, hnone, ?_, ?_⟩
  · intro names b t hitem
    cases names with
    | nil =>
      rw [List.append_nil, h.enters.directory] at hitem
      cases hitem
    | cons name below =>
      rw [h.vacant] at hitem
      cases hitem
  · intro names hitem
    cases names with
    | nil => simp
    | cons name below =>
      rw [h.vacant] at hitem
      cases hitem

/-- Stores with one root that is vacant at the start, asked anything at any times within the
limits of the system: every request is answered, as an empty shelf answers them, and afterwards
the files below the root are exactly the volumes of that shelf, each with the time it was put
there. -/
theorem serve_eq_replies (root : Path) (s : Site) (requests : List Request)
    (hnul : '\x00' ∉ root.text.toList) (hvacant : Vacant root s.files)
    (hfits : ∀ r ∈ requests, r.Fits s.files.working root) :
    ∃ s₁, serve root requests s = (.ok (replies root empty requests), s₁) ∧
      ∀ names b t, s₁.files.item? (root.key s.files.working ++ names) = some (.file b t) ↔
        ∃ relative v, requests.foldl after empty relative = some v ∧
          names = relative.components ∧ b = (encode v.producer v.payload).pack ∧ t = v.time := by
  obtain ⟨s₁, hserve, hworking, hstands⟩ := (stands_empty hvacant).serve hnul hfits
  refine ⟨s₁, hserve, fun names b t => ?_⟩
  rw [← hworking]
  exact hstands.file_iff names b t

theorem serve_eq_replies_mixed :
    let a : Path := ⟨"a.tree"⟩
    let b : Path := ⟨"x/b.tree"⟩
    let requests : List Request :=
      [⟨"one", a, .inspect, 1⟩, ⟨"one", a, .writeOnce [1, 2], 2⟩, ⟨"two", a, .writeOnce [3], 3⟩,
        ⟨"two", b, .write [4], 4⟩, ⟨"one", b, .write [], 5⟩, ⟨"two", a, .read, 6⟩,
        ⟨"two", b, .inspect, 7⟩]
    let s : Site := { files := ⟨.directory [("r", .directory [] 0)] 0, [], 0⟩ }
    ∃ s₁, serve ⟨"r"⟩ requests s =
        (.ok [.inspected (.error (.io ⟨"r/a.tree"⟩ .notFound)), .stored true, .stored false,
          .written ⟨"r/x/b.tree"⟩, .written ⟨"r/x/b.tree"⟩, .found (some [1, 2]),
          .inspected (.ok [])], s₁) ∧
      s₁.files.item? ["r", "a.tree"] = some (.file (encode "one" [1, 2]).pack 2) ∧
      s₁.files.item? ["r", "x", "b.tree"] = some (.file (encode "one" []).pack 5) := by
  intro a b requests s
  have ha : Named a := ⟨"a", ⟨["a"]⟩, by decide, by decide⟩
  have hb : Named b := ⟨"x.b", ⟨["x", "b"]⟩, by decide, by decide⟩
  have hfits : ∀ r ∈ requests, r.Fits [] ⟨"r"⟩ := by
    simp only [requests, List.forall_mem_cons]
    refine ⟨?_, ?_, ?_, ?_, ?_, ?_, ?_, by simp⟩
    all_goals
      apply Request.fits_of_brief
      · decide
      · first | exact ha | exact hb
      · decide
      · decide
      · decide
      · decide +kernel
  have hvacant : Vacant ⟨"r"⟩ s.files := ⟨⟨by decide, by decide⟩, fun _ _ => rfl⟩
  have hjoin : (Path.mk "r").join a = ⟨"r/a.tree"⟩ ∧ (Path.mk "r").join b = ⟨"r/x/b.tree"⟩ := by
    decide
  obtain ⟨s₁, hserve, hfiles⟩ := serve_eq_replies ⟨"r"⟩ s requests (by decide) hvacant hfits
  rw [← hjoin.1, ← hjoin.2]
  exact ⟨s₁, hserve, (hfiles ["a.tree"] _ 2).2 ⟨a, _, rfl, by decide, rfl, rfl⟩,
    (hfiles ["x", "b.tree"] _ 5).2 ⟨b, _, rfl, by decide, rfl, rfl⟩⟩

/-! ## Paths that are too long -/

theorem serve_write_of_error {root relative : Path} {producer : String} {payload : Bytes}
    {time : Nat} {s s₁ : Site} {e : CacheError}
    (h : (Store.write ⟨root, producer⟩ relative payload).on (s.atTime time) = (.error e, s₁)) :
    (serve root [⟨producer, relative, .write payload, time⟩] s).1 = .error e := by
  simp only [serve, Request.job, Job.on_bind, h]

theorem write_of_long {store : Store} {relative : Path}
    (hempty : (store.pathOf relative).isEmpty = false)
    (hlong : FileSystem.pathLimit ≤ (store.pathOf relative).text.utf8ByteSize) (payload : Bytes)
    (s : Site) : ∃ e s₁, (store.write relative payload).on s = (.error e, s₁) := by
  have hreplace (fs : FileSystem) (b : ByteArray) :
      ∃ e, fs.replace (store.pathOf relative) b = .error e := by
    rw [FileSystem.replace]
    split
    · exact ⟨_, rfl⟩
    · rw [FileSystem.locate, if_neg (by simp [hempty]), if_pos hlong]
      exact ⟨_, rfl⟩
  rw [Store.on_write]
  split
  next => exact ⟨_, _, rfl⟩
  next =>
    split
    next => exact ⟨_, _, rfl⟩
    next fs _ =>
      obtain ⟨e, he⟩ := hreplace fs (encode store.producer payload).pack
      rw [he]
      exact ⟨_, _, rfl⟩

theorem write_of_long_passing {store : Store} {relative dir : Path} {s : Site}
    (hdir : (store.pathOf relative).parent? = some dir)
    (hlong : FileSystem.pathLimit ≤ (FileSystem.passing s.files.working dir).text.utf8ByteSize)
    (payload : Bytes) : ∃ e s₁, (store.write relative payload).on s = (.error e, s₁) := by
  rw [Store.on_write, hdir, Option.getD_some]
  have hframe := FileSystem.evolves_makeDirectories dir s.files
  rcases hmade : s.files.makeDirectories dir with ⟨result, fs⟩
  rw [hmade] at hframe
  cases result with
  | error e => exact ⟨_, _, rfl⟩
  | ok u =>
    rw [← hframe.working] at hlong
    obtain ⟨e, he⟩ := FileSystem.disturb_of_long hlong
    simp only [he]
    exact ⟨_, _, rfl⟩

section OfSizes

variable {front : List Nat} {last : Nat} (hpos : ∀ n ∈ front ++ [last], n ≠ 0)
include hpos

theorem named_ofSizes : Named ((Place.ofSizes (front ++ [last])).relative "tree") :=
  ⟨_, _, Place.ofName_intercalate (Place.proper_ofSizes (by simp) hpos), rfl⟩

theorem fits_tree_ofSizes (hfront : ∀ n ∈ front, n ≤ 255) (hlast : last ≤ 250) :
    ∀ c ∈ ((Place.ofSizes (front ++ [last])).relative "tree").components,
      '\x00' ∉ c.toList ∧ c.utf8ByteSize ≤ FileSystem.nameLimit := by
  have hending : (Place.ending "tree").utf8ByteSize = 5 := by decide
  rw [Place.components_relative (Place.proper_ofSizes (by simp) hpos) (by decide)]
  refine Place.fits_ofSizes hfront ?_ (by decide)
  rw [hending]
  exact Nat.add_le_add_right hlast 5

theorem size_tree_ofSizes :
    ((Path.mk "r").join ((Place.ofSizes (front ++ [last])).relative "tree")).text.utf8ByteSize =
      1 + (front.map (· + 1) ++ [last + 6]).foldr (· + ·) 0 := by
  have hending : (Place.ending "tree").utf8ByteSize = 5 := by decide
  have hroot : (Path.mk "r").text.utf8ByteSize = 1 := by decide
  have hwithin := Place.utf8ByteSize_within_ofSizes hpos (by decide : '/' ∉ "tree".toList)
    (by decide : (Path.mk "r").isEmpty = false) (by decide : (Path.mk "r").endsInSlash = false)
  rw [hending, hroot] at hwithin
  exact hwithin

end OfSizes

theorem write_fails_of_long {front : List Nat} {last : Nat} (hpos : ∀ n ∈ front ++ [last], n ≠ 0)
    (hlong : FileSystem.pathLimit ≤ 1 + (front.map (· + 1) ++ [last + 6]).foldr (· + ·) 0)
    (producer : String) (payload : Bytes) (time : Nat) (s : Site) :
    ∃ e, (serve ⟨"r"⟩ [⟨producer, (Place.ofSizes (front ++ [last])).relative "tree",
      .write payload, time⟩] s).1 = .error e := by
  let store : Store := ⟨⟨"r"⟩, producer⟩
  let relative := (Place.ofSizes (front ++ [last])).relative "tree"
  have hlong : FileSystem.pathLimit ≤ (store.pathOf relative).text.utf8ByteSize := by
    rw [← size_tree_ofSizes hpos] at hlong
    exact hlong
  have hempty : (store.pathOf relative).isEmpty = false := by
    apply Bool.eq_false_iff.2
    intro h
    rw [of_decide_eq_true h] at hlong
    exact absurd hlong (by decide)
  obtain ⟨e, s₁, hwrite⟩ := write_of_long hempty hlong payload (s.atTime time)
  exact ⟨e, serve_write_of_error hwrite⟩

theorem write_fails_of_long_passing {front : List Nat} {last : Nat}
    (hpos : ∀ n ∈ front ++ [last], n ≠ 0) (hne : front ≠ [])
    (hlong : FileSystem.pathLimit ≤ 1 + (front.map (· + 1)).foldr (· + ·) 0 + 10)
    (producer : String) (payload : Bytes) (time : Nat) (s : Site) :
    ∃ e, (serve ⟨"r"⟩ [⟨producer, (Place.ofSizes (front ++ [last])).relative "tree",
      .write payload, time⟩] s).1 = .error e := by
  let store : Store := ⟨⟨"r"⟩, producer⟩
  let relative := (Place.ofSizes (front ++ [last])).relative "tree"
  let dir := (Path.mk "r").descend (front.map Path.letters)
  have hroot : (Path.mk "r").text.utf8ByteSize = 1 := by decide
  have hdir : dir.text.utf8ByteSize = 1 + (front.map (· + 1)).foldr (· + ·) 0 := by
    rw [← hroot]
    exact Place.utf8ByteSize_descend_letters (fun n hn => hpos n (List.mem_append_left _ hn))
      (by decide) (by decide)
  have hpassing : FileSystem.pathLimit ≤
      (FileSystem.passing (s.atTime time).files.working dir).text.utf8ByteSize := by
    rw [← hdir] at hlong
    exact Nat.le_trans hlong (FileSystem.utf8ByteSize_le_passing dir _)
  have hparent : (store.pathOf relative).parent? = some dir :=
    Place.parent?_within_ofSizes hpos (by decide) hne ⟨"r"⟩
  obtain ⟨e, s₁, hwrite⟩ := write_of_long_passing hparent hpassing payload
  exact ⟨e, serve_write_of_error hwrite⟩

/-- Names of 255 letters fit, but the path that sixteen of them make does not. And where the path
just fits, that of the passing file need not. -/
theorem serve_fails_on_long_path :
    let request (front : List Nat) (last : Nat) : Request :=
      ⟨"one", (Place.ofSizes (front ++ [last])).relative "tree", .write [], 1⟩
    let long := request (List.replicate 15 255) 250
    let near := request (List.replicate 15 255 ++ [245]) 1
    let s : Site := { files := ⟨.directory [("r", .directory [] 0)] 0, [], 0⟩ }
    Vacant ⟨"r"⟩ s.files ∧ (header "one" []).length < Nat.pow 256 4 ∧
      (∀ r ∈ [long, near], Named r.relative ∧
        (∀ c ∈ r.relative.components, '\x00' ∉ c.toList ∧ c.utf8ByteSize ≤ FileSystem.nameLimit) ∧
        ∃ e, (serve ⟨"r"⟩ [r] s).1 = .error e) ∧
      ((Path.mk "r").join near.relative).text.utf8ByteSize < FileSystem.pathLimit := by
  intro request long near s
  have hlong : ∀ n ∈ List.replicate 15 255 ++ [250], n ≠ 0 := by decide
  have hnear : ∀ n ∈ (List.replicate 15 255 ++ [245]) ++ [1], n ≠ 0 := by decide
  refine ⟨⟨⟨by decide, by decide⟩, fun _ _ => rfl⟩, length_header_lt (by decide) [], ?_, ?_⟩
  · rw [List.forall_mem_cons, List.forall_mem_singleton]
    exact ⟨⟨named_ofSizes hlong, fits_tree_ofSizes hlong (by decide) (by decide),
        write_fails_of_long hlong (by decide) "one" [] 1 s⟩,
      named_ofSizes hnear, fits_tree_ofSizes hnear (by decide) (by decide),
        write_fails_of_long_passing hnear (by decide) (by decide) "one" [] 1 s⟩
  · rw [size_tree_ofSizes hnear]
    decide

end Shelf

end Trainyard.Artifact
