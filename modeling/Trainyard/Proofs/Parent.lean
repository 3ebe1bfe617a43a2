import Mathlib.Data.List.DropRight
import Trainyard.Proofs.Path

/-!
# The parent of a path

The parent is cut out of the text, so blank pieces before the last name go with it. What is
left may be spelled unlike the directory that the name was put behind, and yet it starts at the
same place and names the same directories.
-/

set_option autoImplicit false

namespace Trainyard.Path

theorem mem_text_join {p q : Path} {c : Char} (h : c ∈ (p.join q).text.toList) :
    c = '/' ∨ c ∈ p.text.toList ∨ c ∈ q.text.toList := by
  rw [join] at h
  split at h
  next => exact .inr (.inr h)
  next =>
    split at h
    next => simpa using Or.inr h
    next =>
      simp only [String.toList_append, List.mem_append] at h
      rcases h with (hp | hslash) | hq
      · exact .inr (.inl hp)
      · exact .inl (by simpa using hslash)
      · exact .inr (.inr hq)

theorem utf8ByteSize_descend {names : List String} (h : ∀ name ∈ names, Plain name) {p : Path}
    (hempty : p.isEmpty = false) (hslash : p.endsInSlash = false) :
    (p.descend names).text.utf8ByteSize =
      p.text.utf8ByteSize + (names.map fun name => name.utf8ByteSize + 1).foldr (· + ·) 0 := by
  induction names generalizing p with
  | nil => rfl
  | cons name names ih =>
    rw [List.forall_mem_cons] at h
    have hchild : (p.child name).text = p.text ++ "/" ++ name := by
      rcases text_child h.1 p with ⟨-, hblank⟩ | ⟨htext, -⟩
      · simp [hempty, hslash] at hblank
      · exact htext
    have hslash : "/".utf8ByteSize = 1 := by decide
    rw [descend, List.foldl_cons, ← descend, ih h.2 (isEmpty_child h.1 p) (endsInSlash_child h.1 p),
      hchild, String.utf8ByteSize_append, String.utf8ByteSize_append, List.map_cons,
      List.foldr_cons]
    omega

theorem utf8ByteSize_le_absolute (p : Path) (working : List String) :
    p.text.utf8ByteSize ≤ (p.absolute working).text.utf8ByteSize := by
  rw [absolute]
  split
  · exact Nat.le_refl _
  next hrelative =>
    rw [join, if_neg hrelative]
    split <;> simp only [String.utf8ByteSize_append] <;> omega

theorem utf8ByteSize_le_child {name : String} (h : Plain name) (p : Path) :
    p.text.utf8ByteSize + name.utf8ByteSize ≤ (p.child name).text.utf8ByteSize := by
  rcases text_child h p with ⟨htext, -⟩ | ⟨htext, -⟩
  · rw [htext, String.utf8ByteSize_append]
  · rw [htext, String.utf8ByteSize_append, String.utf8ByteSize_append]
    omega

def letters (n : Nat) : String := String.ofList (List.replicate n 's')

theorem utf8ByteSize_letters (n : Nat) : (letters n).utf8ByteSize = n := by
  show (List.replicate n 's').utf8Encode.size = n
  induction n with
  | zero => rfl
  | succ n ih =>
    rw [List.replicate_succ, List.utf8Encode_cons, ByteArray.size_append, ih,
      List.utf8Encode_singleton]
    show 1 + n = n + 1
    omega

theorem not_mem_letters {c : Char} (hc : c ≠ 's') (n : Nat) : c ∉ (letters n).toList := by
  rw [letters, String.toList_ofList]
  exact fun hmem => hc (List.eq_of_mem_replicate hmem)

theorem stem_letters {n : Nat} (h : n ≠ 0) : Stem (letters n) := by
  refine ⟨fun heq => ?_, not_mem_letters (by decide) n, not_mem_letters (by decide) n⟩
  have hsize := utf8ByteSize_letters n
  rw [heq] at hsize
  exact h hsize.symm

theorem start_intercalate (front rest : List String) :
    ("/".intercalate front).toList <+: ("/".intercalate (front ++ rest)).toList := by
  by_cases hrest : rest = []
  · simp [hrest]
  · by_cases hfront : front = []
    · simp [hfront]
    · rw [String.intercalate_append_of_ne_nil hfront hrest, String.append_assoc, String.toList_append]
      exact List.prefix_append _ _

theorem pieces_intercalate {names : List String} (hne : names ≠ [])
    (h : ∀ name ∈ names, '/' ∉ name.toList) : (Path.mk ("/".intercalate names)).pieces = names :=
  Text.parts_intercalate rfl hne h

theorem filter_pieces_intercalate {names : List String} (h : ∀ name ∈ names, '/' ∉ name.toList) :
    ((Path.mk ("/".intercalate names)).pieces.filter fun piece => !isBlank piece) =
      names.filter fun piece => !isBlank piece := by
  by_cases hne : names = []
  · rw [hne]
    decide
  · rw [pieces_intercalate hne h]

theorem isAbsolute_of_start {p q : Path} (h : p.text.toList <+: q.text.toList)
    (hne : p.isEmpty = false) : p.isAbsolute = q.isAbsolute := by
  obtain ⟨rest, hrest⟩ := h
  rw [isAbsolute, isAbsolute, ← hrest]
  cases hcs : p.text.toList with
  | nil => simp [isEmpty, String.toList_eq_nil_iff.1 hcs] at hne
  | cons c cs => rfl

theorem filter_rdropWhile (pieces : List String) :
    (pieces.rdropWhile isBlank).filter (fun piece => !isBlank piece) =
      pieces.filter fun piece => !isBlank piece := by
  induction pieces using List.reverseRecOn with
  | nil => rfl
  | append_singleton pieces piece ih =>
    rw [List.rdropWhile_concat]
    split
    next hblank => simp [ih, hblank]
    next => rfl

theorem filter_components (p : Path) :
    p.components.filter (· ≠ ".") = p.pieces.filter fun piece => !isBlank piece := by
  rw [components, List.filter_filter]
  apply List.filter_congr
  intro piece _
  by_cases hempty : piece = "" <;> by_cases hdot : piece = "." <;> simp [isBlank, hempty, hdot]

theorem not_slash_of_mem_pieces {p : Path} {piece : String} (h : piece ∈ p.pieces) :
    '/' ∉ piece.toList := by
  rw [pieces, Text.parts] at h
  obtain ⟨cs, hcs, rfl⟩ := List.mem_map.1 h
  rw [String.toList_ofList]
  exact Text.not_mem_of_mem_split '/' _ cs hcs

/-- The parent's pieces come first, and of those that are not blank all but the last one stay. -/
theorem parentPieces_eq_some {ps r : List String} (h : parentPieces ps = some r) :
    r <+: ps ∧ (r.filter fun piece => !isBlank piece) =
      (ps.filter fun piece => !isBlank piece).dropLast := by
  rw [parentPieces] at h
  cases hback : ps.reverse.dropWhile isBlank with
  | nil => simp [hback] at h
  | cons name back =>
    rw [hback] at h
    have hr : r = back.reverse.rdropWhile isBlank := by
      rw [List.rdropWhile, List.reverse_reverse]
      exact (Option.some.inj h).symm
    have hkept : ps.rdropWhile isBlank = back.reverse ++ [name] := by
      rw [List.rdropWhile, hback, List.reverse_cons]
    have hname : isBlank name = false := by
      have hhead := List.head_dropWhile_not isBlank (l := ps.reverse) (by simp [hback])
      simpa [hback] using hhead
    constructor
    · rw [hr]
      have hfront : back.reverse <+: ps := by
        have hps := List.rdropWhile_prefix isBlank ps
        rw [hkept] at hps
        exact (List.prefix_append _ _).trans hps
      exact (List.rdropWhile_prefix isBlank _).trans hfront
    · rw [hr, filter_rdropWhile, ← filter_rdropWhile ps, hkept, List.filter_append]
      simp [hname]

theorem parentPieces_ne_none {ps : List String} {name : String} (hmem : name ∈ ps)
    (hname : isBlank name = false) : parentPieces ps ≠ none := by
  rw [parentPieces]
  split
  next hback =>
    have hblank := List.dropWhile_eq_nil_iff.1 hback name (List.mem_reverse.2 hmem)
    simp [hname] at hblank
  next => simp

theorem exists_parent? {p : Path} {name : String} (hmem : name ∈ p.pieces)
    (hname : isBlank name = false) : ∃ dir, p.parent? = some dir := by
  have hsome {ps : List String} (h : name ∈ ps) : ∃ r, parentPieces ps = some r :=
    Option.ne_none_iff_exists'.1 (parentPieces_ne_none h hname)
  have hempty : name ≠ "" := by
    rintro rfl
    simp [isBlank] at hname
  have hdot : name ≠ "." := by
    rintro rfl
    simp [isBlank] at hname
  rw [parent?]
  split
  next hpieces =>
    rw [hpieces] at hmem
    obtain ⟨r, hr⟩ := hsome ((List.mem_cons.1 hmem).resolve_left hempty)
    exact ⟨_, by rw [hr]; rfl⟩
  next hpieces =>
    rw [hpieces] at hmem
    obtain ⟨r, hr⟩ := hsome ((List.mem_cons.1 hmem).resolve_left hdot)
    exact ⟨_, by rw [hr]⟩
  next =>
    obtain ⟨r, hr⟩ := hsome hmem
    exact ⟨_, by rw [hr]; rfl⟩

structure Heads (dir p : Path) : Prop where
  absolute : dir.isAbsolute = p.isAbsolute
  names : dir.components.filter (· ≠ ".") = (p.components.filter (· ≠ ".")).dropLast
  short : dir.text.toList <+: p.text.toList

section Heads

variable {p dir : Path}

theorem heads_of_start (hne : dir.isEmpty = false)
    (hnames : (dir.pieces.filter fun piece => !isBlank piece) =
      (p.pieces.filter fun piece => !isBlank piece).dropLast)
    (hshort : dir.text.toList <+: p.text.toList) : Heads dir p := by
  refine ⟨isAbsolute_of_start hshort hne, ?_, hshort⟩
  rw [filter_components, filter_components, hnames]

theorem heads_empty (hrelative : p.isAbsolute = false)
    (hnames : (p.pieces.filter fun piece => !isBlank piece).dropLast = []) : Heads ⟨""⟩ p := by
  refine ⟨?_, ?_, by simp⟩
  · rw [hrelative]
    rfl
  · rw [filter_components, filter_components, hnames]
    decide

theorem heads_of_absolute {body r : List String} (hbody : body ≠ [])
    (hpieces : p.pieces = "" :: body) (hr : parentPieces body = some r) :
    Heads ⟨"/" ++ "/".intercalate r⟩ p := by
  obtain ⟨⟨rest, hrest⟩, hnames⟩ := parentPieces_eq_some hr
  have hslash : ∀ piece ∈ r, '/' ∉ piece.toList := by
    intro piece hmem
    apply not_slash_of_mem_pieces (p := p)
    rw [hpieces, ← hrest]
    simp [hmem]
  have htext := intercalate_pieces p
  rw [hpieces, String.intercalate_cons_of_ne_nil hbody, String.empty_append] at htext
  apply heads_of_start
  · simp [isEmpty]
  · have hdir := pieces_slash "" ("/".intercalate r)
    rw [String.empty_append] at hdir
    rw [hdir, hpieces, List.filter_append, filter_pieces_intercalate hslash, hnames]
    rfl
  · rw [← htext, String.toList_append, String.toList_append, List.prefix_append_right_inj, ← hrest]
    exact start_intercalate _ _

theorem heads_of_relative {first : String} {rest ps : List String} (hne : first ≠ "")
    (hpieces : p.pieces = first :: (rest ++ ps))
    (hnames : ((first :: rest).filter fun piece => !isBlank piece) =
      (p.pieces.filter fun piece => !isBlank piece).dropLast) :
    Heads ⟨"/".intercalate (first :: rest)⟩ p := by
  have hslash : ∀ piece ∈ first :: rest, '/' ∉ piece.toList := by
    intro piece hmem
    apply not_slash_of_mem_pieces (p := p)
    rw [hpieces, ← List.cons_append]
    exact List.mem_append_left _ hmem
  have hdir := pieces_intercalate (List.cons_ne_nil first rest) hslash
  apply heads_of_start
  · by_contra hempty
    have hnone : "/".intercalate (first :: rest) = "" := by simpa [isEmpty] using hempty
    rw [hnone] at hdir
    exact hne (List.cons.inj hdir).1.symm
  · rw [hdir, hnames]
  · rw [← intercalate_pieces p, hpieces, ← List.cons_append]
    exact start_intercalate _ _

theorem isAbsolute_of_pieces {first : String} {rest : List String} (hne : first ≠ "")
    (hpieces : p.pieces = first :: rest) : p.isAbsolute = false := by
  have hslash : '/' ∉ first.toList := by
    apply not_slash_of_mem_pieces (p := p)
    rw [hpieces]
    exact List.mem_cons_self
  have hshort : first.toList <+: p.text.toList := by
    rw [← intercalate_pieces p, hpieces, ← List.singleton_append]
    have hstart := start_intercalate [first] rest
    rwa [String.intercalate_singleton] at hstart
  rw [← isAbsolute_of_start (p := ⟨first⟩) hshort (by simp [isEmpty, hne]), isAbsolute]
  cases hcs : first.toList with
  | nil => rfl
  | cons c cs =>
    rw [hcs] at hslash
    have hc : c ≠ '/' := fun heq => hslash (heq ▸ List.mem_cons_self)
    simp [hc]

/-- How the parent of a path heads it. -/
theorem heads_of_parent? (h : p.parent? = some dir) : Heads dir p := by
  rw [parent?] at h
  split at h
  next hpieces =>
    obtain ⟨r, hr, rfl⟩ := Option.map_eq_some_iff.1 h
    exact heads_of_absolute (List.cons_ne_nil _ _) hpieces hr
  next body hpieces =>
    have hfilter : (p.pieces.filter fun piece => !isBlank piece) =
        body.filter fun piece => !isBlank piece := by
      rw [hpieces]
      rfl
    split at h
    next hnone =>
      cases h
      refine heads_empty (isAbsolute_of_pieces (by decide) hpieces) ?_
      have hblank : (body.filter fun piece => !isBlank piece) = [] := by
        rw [List.filter_eq_nil_iff]
        intro piece hmem hname
        exact parentPieces_ne_none hmem (by simpa using hname) hnone
      rw [hfilter, hblank]
      rfl
    next r hr =>
      cases h
      obtain ⟨⟨rest, hrest⟩, hnames⟩ := parentPieces_eq_some hr
      refine heads_of_relative (by decide) (hpieces.trans (by rw [hrest])) ?_
      rw [hfilter, ← hnames]
      rfl
  next hslash _ =>
    obtain ⟨r, hr, rfl⟩ := Option.map_eq_some_iff.1 h
    obtain ⟨⟨rest, hrest⟩, hnames⟩ := parentPieces_eq_some hr
    obtain ⟨first, tail, hpieces⟩ := List.exists_cons_of_ne_nil p.pieces_ne_nil
    have hne : first ≠ "" := by
      rintro rfl
      cases tail with
      | nil =>
        rw [hpieces] at hr
        exact absurd hr (by simp [parentPieces, isBlank])
      | cons next tail => exact hslash next tail hpieces
    cases r with
    | nil => exact heads_empty (isAbsolute_of_pieces hne hpieces) hnames.symm
    | cons first' r =>
      rw [hpieces, List.cons_append] at hrest
      obtain ⟨rfl, hrest⟩ := List.cons.inj hrest
      exact heads_of_relative hne (hpieces.trans (by rw [hrest])) hnames

theorem heads_child {name : String} (h : Plain name) (p : Path) :
    ∃ dir, (p.child name).parent? = some dir ∧ Heads dir (p.child name) ∧
      dir.components.filter (· ≠ ".") = p.components.filter (· ≠ ".") := by
  have hmem : name ∈ (p.child name).pieces := by
    rcases pieces_child h p with hpieces | ⟨front, -, hpieces⟩
    · simp [hpieces]
    · simp [hpieces]
  obtain ⟨dir, hdir⟩ := exists_parent? hmem h.not_blank
  have hheads := heads_of_parent? hdir
  have hdot := h.dot
  refine ⟨dir, hdir, hheads, ?_⟩
  rw [hheads.names, components_child h, List.filter_append]
  simp [hdot]

end Heads

/-! ## Parents end in names -/

def Trimmed (p : Path) : Prop :=
  ∀ before, p.components = before ++ ["."] → before.filter (· ≠ ".") = []

section Trimmed

variable {p dir : Path}

theorem trimmed_of_pieces (h : ∀ piece ∈ p.pieces.getLast?, isBlank piece = true →
    (p.pieces.filter fun piece => !isBlank piece) = []) : p.Trimmed := by
  intro before hbefore
  obtain ⟨front, last, hpieces⟩ := List.eq_nil_or_concat p.pieces |>.resolve_left p.pieces_ne_nil
  rw [List.concat_eq_append] at hpieces
  cases hblank : isBlank last with
  | true =>
    have hnone := h last (by simp [hpieces]) hblank
    rw [← filter_components, hbefore, List.filter_append] at hnone
    exact (List.append_eq_nil_iff.1 hnone).1
  | false =>
    have hlast : last ≠ "" ∧ last ≠ "." := by simpa [isBlank] using hblank
    rw [components, hpieces, List.filter_append, List.filter_cons_of_pos (by simp [hlast.1])]
      at hbefore
    have hdot := (List.append_inj' hbefore rfl).2
    exact absurd (List.cons.inj hdot).1 hlast.2

theorem parentPieces_getLast? {ps r : List String} (h : parentPieces ps = some r) :
    ∀ piece ∈ r.getLast?, isBlank piece = false := by
  rw [parentPieces] at h
  split at h
  next => cases h
  next back _ =>
    cases h
    intro piece hpiece
    rw [List.getLast?_reverse] at hpiece
    have hhead := List.head?_dropWhile_not isBlank back
    rw [hpiece] at hhead
    exact hhead

theorem trimmed_of_intercalate (front : List String) {r : List String}
    (hpieces : p.pieces = front ++ (Path.mk ("/".intercalate r)).pieces)
    (hfront : ∀ piece ∈ front, isBlank piece = true) (hslash : ∀ piece ∈ r, '/' ∉ piece.toList)
    (hlast : ∀ piece ∈ r.getLast?, isBlank piece = false) : p.Trimmed := by
  apply trimmed_of_pieces
  intro piece hpiece hblank
  rw [hpieces] at hpiece ⊢
  cases r with
  | nil =>
    rw [List.filter_append, List.append_eq_nil_iff, List.filter_eq_nil_iff]
    exact ⟨by simpa using hfront, by decide⟩
  | cons first rest =>
    rw [pieces_intercalate (by simp) hslash, List.getLast?_append_of_ne_nil _ (by simp)] at hpiece
    rw [hlast piece hpiece] at hblank
    cases hblank

theorem trimmed_of_parent? (h : p.parent? = some dir) : dir.Trimmed := by
  have hslash (front : List String) {ps r : List String} (hpieces : p.pieces = front ++ ps)
      (hr : parentPieces ps = some r) : ∀ piece ∈ r, '/' ∉ piece.toList := by
    intro piece hmem
    apply not_slash_of_mem_pieces (p := p)
    rw [hpieces]
    exact List.mem_append_right _ ((parentPieces_eq_some hr).1.subset hmem)
  rw [parent?] at h
  split at h
  next hpieces =>
    obtain ⟨r, hr, rfl⟩ := Option.map_eq_some_iff.1 h
    refine trimmed_of_intercalate [""] ?_ (by decide) (hslash [""] hpieces hr)
      (parentPieces_getLast? hr)
    have hdir := pieces_slash "" ("/".intercalate r)
    rwa [String.empty_append] at hdir
  next body hpieces =>
    split at h
    next =>
      cases h
      exact fun before hbefore => absurd hbefore (by simp [components_empty])
    next r hr =>
      cases h
      have hlast := parentPieces_getLast? hr
      have hslash := hslash ["."] hpieces hr
      cases r with
      | nil =>
        intro before hbefore
        have hdot : (Path.mk ("/".intercalate ["."])).components = ["."] := by decide
        rw [hdot] at hbefore
        cases before with
        | nil => rfl
        | cons c cs => simp at hbefore
      | cons first rest =>
        refine trimmed_of_intercalate [] rfl (by simp) ?_ ?_
        · exact List.forall_mem_cons.2 ⟨by decide, hslash⟩
        · simpa using hlast
  next =>
    obtain ⟨r, hr, rfl⟩ := Option.map_eq_some_iff.1 h
    exact trimmed_of_intercalate [] rfl (by simp) (hslash [] rfl hr)
      (parentPieces_getLast? hr)

end Trimmed

end Trainyard.Path

namespace Trainyard.Place

def ofSizes (sizes : List Nat) : Place := ⟨sizes.map Path.letters⟩

section OfSizes

variable {sizes front : List Nat} {last : Nat}

theorem proper_ofSizes (hne : sizes ≠ []) (hpos : ∀ n ∈ sizes, n ≠ 0) : (ofSizes sizes).Proper := by
  have hstem : ∀ segment ∈ (ofSizes sizes).segments, Path.Stem segment := by
    intro segment hmem
    obtain ⟨n, hn, rfl⟩ := List.mem_map.1 hmem
    exact Path.stem_letters (hpos n hn)
  exact ⟨by simpa [ofSizes] using hne, fun n hn => (hstem n hn).ne, fun n hn => (hstem n hn).dot,
    fun n hn => (hstem n hn).slash⟩

theorem componentsOf_ofSizes (ending : String) (front : List Nat) (last : Nat) :
    componentsOf ending (ofSizes (front ++ [last])).segments =
      front.map Path.letters ++ [Path.letters last ++ ending] := by
  rw [ofSizes, List.map_append, List.map_singleton]
  exact componentsOf_append ending _ _

theorem map_size_letters (sizes : List Nat) :
    (sizes.map Path.letters).map (fun name => name.utf8ByteSize + 1) = sizes.map (· + 1) := by
  rw [List.map_map]
  exact List.map_congr_left fun n _ => congrArg (· + 1) (Path.utf8ByteSize_letters n)

theorem utf8ByteSize_within_ofSizes (hpos : ∀ n ∈ front ++ [last], n ≠ 0) {extension : String}
    (he : '/' ∉ extension.toList) {dir : Path} (hempty : dir.isEmpty = false)
    (hslash : dir.endsInSlash = false) :
    ((ofSizes (front ++ [last])).within dir extension).text.utf8ByteSize = dir.text.utf8ByteSize +
      (front.map (· + 1) ++ [last + (ending extension).utf8ByteSize + 1]).foldr (· + ·) 0 := by
  have hproper := proper_ofSizes (by simp) hpos
  rw [within_eq_descend hproper he,
    Path.utf8ByteSize_descend (fun c hc => plain_of_mem_componentsOf hproper he hc) hempty hslash,
    componentsOf_ofSizes, List.map_append, map_size_letters, List.map_singleton,
    String.utf8ByteSize_append, Path.utf8ByteSize_letters]

theorem plain_letters (hpos : ∀ n ∈ sizes, n ≠ 0) :
    ∀ name ∈ sizes.map Path.letters, Path.Plain name := by
  intro name hname
  obtain ⟨n, hn, rfl⟩ := List.mem_map.1 hname
  exact (Path.stem_letters (hpos n hn)).plain

theorem parent?_within_ofSizes (hpos : ∀ n ∈ front ++ [last], n ≠ 0) {extension : String}
    (he : '/' ∉ extension.toList) (hne : front ≠ []) (dir : Path) :
    ((ofSizes (front ++ [last])).within dir extension).parent? =
      some (dir.descend (front.map Path.letters)) := by
  have hproper := proper_ofSizes (by simp) hpos
  have hplain : Path.Plain (Path.letters last ++ ending extension) := by
    apply plain_of_mem_componentsOf hproper he
    rw [componentsOf_ofSizes]
    exact List.mem_append_right _ (List.mem_singleton_self _)
  rw [within_eq_descend hproper he, componentsOf_ofSizes]
  exact Path.parent?_descend (plain_letters fun n hn => hpos n (List.mem_append_left _ hn)) dir
    hplain (by simpa using hne)

theorem utf8ByteSize_descend_letters (hpos : ∀ n ∈ sizes, n ≠ 0) {dir : Path}
    (hempty : dir.isEmpty = false) (hslash : dir.endsInSlash = false) :
    (dir.descend (sizes.map Path.letters)).text.utf8ByteSize =
      dir.text.utf8ByteSize + (sizes.map (· + 1)).foldr (· + ·) 0 := by
  rw [Path.utf8ByteSize_descend (plain_letters hpos) hempty hslash, map_size_letters]

theorem fits_ofSizes {ending : String} {limit : Nat} (hfront : ∀ n ∈ front, n ≤ limit)
    (hlast : last + ending.utf8ByteSize ≤ limit) (hnul : '\x00' ∉ ending.toList) :
    ∀ c ∈ componentsOf ending (ofSizes (front ++ [last])).segments,
      '\x00' ∉ c.toList ∧ c.utf8ByteSize ≤ limit := by
  rw [componentsOf_ofSizes]
  intro c hc
  rcases List.mem_append.1 hc with hc | hc
  · obtain ⟨n, hn, rfl⟩ := List.mem_map.1 hc
    rw [Path.utf8ByteSize_letters]
    exact ⟨Path.not_mem_letters (by decide) n, hfront n hn⟩
  · rw [List.mem_singleton.1 hc, String.utf8ByteSize_append, Path.utf8ByteSize_letters,
      String.toList_append, List.mem_append]
    exact ⟨fun h => h.elim (Path.not_mem_letters (by decide) last) hnul, hlast⟩

end OfSizes

end Trainyard.Place
