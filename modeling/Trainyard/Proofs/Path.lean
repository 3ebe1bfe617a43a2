import Trainyard.Proofs.FileSystem.Passage
import Trainyard.Proofs.Place

/-!
# Paths put together name by name

The files of the program all lie at a given directory extended by names. Such a path has
the components of the directory followed by the names, its parent is the same path
without the last name, and a place below a directory is a path of this kind.
-/

set_option autoImplicit false

namespace Trainyard

theorem Text.intercalate_split (sep : Char) (cs : List Char) :
    [sep].intercalate (Text.split sep cs) = cs := by
  induction cs with
  | nil => rfl
  | cons c r ih =>
    rw [Text.split_cons]
    cases hsplit : Text.split sep r with
    | nil => exact absurd hsplit (Text.split_ne_nil sep r)
    | cons p ps =>
      rw [hsplit] at ih
      rw [Text.prepend]
      by_cases hc : c = sep
      · rw [if_pos hc, List.intercalate_cons_cons, ih, hc]
        rfl
      · rw [if_neg hc]
        cases ps with
        | nil => simpa using ih
        | cons q ps =>
          rw [List.intercalate_cons_cons] at ih ⊢
          rw [List.cons_append, List.cons_append, ih]

theorem Text.split_intercalate (sep : Char) {ps : List (List Char)} (hne : ps ≠ [])
    (h : ∀ p ∈ ps, sep ∉ p) : Text.split sep ([sep].intercalate ps) = ps := by
  induction ps with
  | nil => exact absurd rfl hne
  | cons p ps ih =>
    rw [List.forall_mem_cons] at h
    cases ps with
    | nil => simpa using Text.split_of_not_mem sep p h.1
    | cons q ps =>
      rw [List.intercalate_cons_cons, List.append_assoc, List.singleton_append,
        Text.split_append, Text.split_of_not_mem sep p h.1, ih (by simp) h.2]
      rfl

theorem Text.parts_intercalate {sep : Char} {between : String} (hsep : between.toList = [sep])
    {names : List String} (hne : names ≠ []) (h : ∀ name ∈ names, sep ∉ name.toList) :
    Text.parts sep (between.intercalate names) = names := by
  have hparts : names.map String.toList ≠ [] := by simpa using hne
  have hsplit := Text.split_intercalate sep hparts (by simpa using h)
  rw [Text.parts, String.toList_intercalate, hsep, hsplit, List.map_map]
  exact List.map_id'' (fun c => String.ofList_toList) _

theorem Text.mem_intercalate {between : String} {names : List String} {c : Char}
    (h : c ∈ (between.intercalate names).toList) :
    c ∈ between.toList ∨ ∃ name ∈ names, c ∈ name.toList := by
  induction names with
  | nil => simp at h
  | cons name names ih =>
    by_cases hne : names = []
    · rw [hne, String.intercalate_singleton] at h
      exact .inr ⟨name, by simp, h⟩
    · rw [String.intercalate_cons_of_ne_nil hne] at h
      simp only [String.toList_append, List.mem_append] at h
      rcases h with (hname | hbetween) | hrest
      · exact .inr ⟨name, by simp, hname⟩
      · exact .inl hbetween
      · exact (ih hrest).imp_right fun ⟨other, hmem, hc⟩ => ⟨other, by simp [hmem], hc⟩

namespace Path

theorem intercalate_pieces (p : Path) : "/".intercalate p.pieces = p.text := by
  rw [← String.toList_inj, String.toList_intercalate, pieces, Text.parts, List.map_map]
  have hid : String.toList ∘ String.ofList = id := funext fun cs => String.toList_ofList
  rw [hid, List.map_id]
  exact Text.intercalate_split '/' p.text.toList

theorem pieces_ne_nil (p : Path) : p.pieces ≠ [] := by
  intro h
  exact Text.split_ne_nil '/' p.text.toList (List.map_eq_nil_iff.1 h)

structure Plain (name : String) : Prop where
  ne : name ≠ ""
  slash : '/' ∉ name.toList
  dot : name ≠ "."
  dots : name ≠ ".."

structure Stem (name : String) : Prop where
  ne : name ≠ ""
  slash : '/' ∉ name.toList
  dot : '.' ∉ name.toList

theorem Stem.plain {name : String} (h : Stem name) : Plain name := by
  have hdot := h.dot
  refine ⟨h.ne, h.slash, ?_, ?_⟩
  · rintro rfl
    exact absurd hdot (by decide)
  · rintro rfl
    exact absurd hdot (by decide)

section Child

variable {name : String} (h : Plain name) (p : Path)

include h

theorem Plain.descends : (Path.mk name).Descends := descends_name h.ne h.slash h.dot h.dots

theorem Plain.pieces : (Path.mk name).pieces = [name] := by
  simp [Path.pieces, Text.parts, Text.split_of_not_mem '/' name.toList h.slash]

theorem Plain.not_blank : isBlank name = false := by
  simp [isBlank, h.ne, h.dot]

theorem text_child : (p.child name).text = p.text ++ name ∧ (p.isEmpty = true ∨ p.endsInSlash = true) ∨
    (p.child name).text = p.text ++ "/" ++ name ∧ p.isEmpty = false ∧ p.endsInSlash = false := by
  have hrelative := h.descends.relative
  rw [child, join, hrelative]
  cases p.isEmpty <;> cases p.endsInSlash <;> simp

theorem components_child : (p.child name).components = p.components ++ [name] := by
  rw [child, components_join p h.descends.relative, components_name h.ne h.slash]

theorem isAbsolute_child : (p.child name).isAbsolute = p.isAbsolute :=
  isAbsolute_join p h.descends.relative

theorem key_child (working : Key) : (p.child name).key working = p.key working ++ [name] := by
  rw [child, key_join working p h.descends, components_name h.ne h.slash]

theorem isEmpty_child : (p.child name).isEmpty = false := by
  have hne := h.ne
  rcases text_child h p with ⟨htext, -⟩ | ⟨htext, -⟩ <;> simp [isEmpty, htext, hne]

theorem endsInSlash_child : (p.child name).endsInSlash = false := by
  have hsuffix : ∃ front, (p.child name).text = front ++ name := by
    rcases text_child h p with ⟨htext, -⟩ | ⟨htext, -⟩
    · exact ⟨_, htext⟩
    · exact ⟨_, htext⟩
  obtain ⟨front, htext⟩ := hsuffix
  obtain ⟨c, hc⟩ : ∃ c, name.toList.getLast? = some c := by
    cases hlast : name.toList.getLast? with
    | none => exact absurd (String.toList_eq_nil_iff.1 (List.getLast?_eq_none_iff.1 hlast)) h.ne
    | some c => exact ⟨c, rfl⟩
  have hne : c ≠ '/' := fun hslash => h.slash (hslash ▸ List.mem_of_getLast? hc)
  simp [endsInSlash, htext, List.getLast?_append, hc, hne]

/-- The pieces of an extended path. An empty one at the end gives way to the name. -/
theorem pieces_child : (p.child name).pieces = p.pieces ++ [name] ∨
    ∃ front, p.pieces = front ++ [""] ∧ (p.child name).pieces = front ++ [name] := by
  rcases text_child h p with ⟨htext, hempty | hslash⟩ | ⟨htext, -⟩
  · have hp : p.text = "" := by simpa [isEmpty] using hempty
    refine .inr ⟨[], ?_, ?_⟩
    · rw [pieces, hp]
      decide
    · rw [pieces, htext, hp, String.empty_append]
      exact h.pieces
  · obtain ⟨a, rfl⟩ := exists_of_endsInSlash hslash
    refine .inr ⟨(Path.mk a).pieces, ?_, ?_⟩
    · have hpieces := pieces_slash a ""
      rwa [String.append_empty] at hpieces
    · rw [pieces, htext, ← h.pieces]
      exact pieces_slash a name
  · refine .inl ?_
    rw [pieces, htext, ← h.pieces]
    exact pieces_slash p.text name

end Child

theorem names_eq (p : Path) : p.names =
    (p.pieces.filter fun piece => !isBlank piece).reverse ++
      if p.pieces.head? = some "." then ["."] else [] := by
  rw [names]
  split
  next body hpieces => simp [hpieces, isBlank]
  next hpieces =>
    rw [if_neg, List.append_nil]
    intro hhead
    obtain ⟨body, hbody⟩ := List.head?_eq_some_iff.1 hhead
    exact hpieces body hbody

theorem names_child {name : String} (h : Plain name) (p : Path) :
    (p.child name).names = name :: p.names := by
  have hfilter (front : List String) : (front ++ [name]).filter (fun piece => !isBlank piece) =
      front.filter (fun piece => !isBlank piece) ++ [name] := by
    simp [List.filter_append, h.not_blank]
  rw [names_eq, names_eq]
  rcases pieces_child h p with hpieces | ⟨front, hp, hpieces⟩
  · rw [hpieces, hfilter]
    cases hfront : p.pieces with
    | nil => exact absurd hfront p.pieces_ne_nil
    | cons first front => simp
  · have hempty : (front ++ [""]).filter (fun piece => !isBlank piece) =
        front.filter fun piece => !isBlank piece := by
      rw [List.filter_append, show [""].filter (fun piece => !isBlank piece) = [] by decide,
        List.append_nil]
    rw [hpieces, hp, hfilter, hempty]
    cases front with
    | nil => simp [h.dot]
    | cons first front => simp

/-! ## Parents -/

theorem parentPieces_append {m n : String} (hm : Plain m) (hn : Plain n) (front : List String) :
    parentPieces (front ++ [m, n]) = some (front ++ [m]) := by
  simp [parentPieces, List.dropWhile, hm.not_blank, hn.not_blank]

theorem parent?_child_child {m n : String} (hm : Plain m) (hn : Plain n) (p : Path) :
    ((p.child m).child n).parent? = some (p.child m) := by
  obtain ⟨front, hfront⟩ : ∃ front, (p.child m).pieces = front ++ [m] := by
    rcases pieces_child hm p with h | ⟨front, -, h⟩
    · exact ⟨_, h⟩
    · exact ⟨front, h⟩
  have hpieces : ((p.child m).child n).pieces = front ++ [m, n] := by
    rcases pieces_child hn (p.child m) with h | ⟨front', h', -⟩
    · rw [h, hfront, List.append_assoc]
      rfl
    · rw [hfront] at h'
      exact absurd (List.append_inj_right' h' rfl) (by simp [hm.ne])
  have hsame : "/".intercalate (front ++ [m]) = (p.child m).text := by
    rw [← hfront, intercalate_pieces]
  -- the three kinds of first pieces are an absolute path, a leading dot, and a name
  rw [parent?, hpieces]
  cases front with
  | nil =>
    split
    next h => exact absurd (List.cons.inj h).1 hm.ne
    next h => exact absurd (List.cons.inj h).1 hm.dot
    next => rw [parentPieces_append hm hn, Option.map_some, hsame]
  | cons first front =>
    split
    next h =>
      obtain ⟨hfirst, hbody⟩ := List.cons.inj (List.cons_append ▸ h)
      rw [List.cons_append, hfirst, String.intercalate_cons_of_ne_nil (by simp), String.empty_append] at hsame
      rw [← hbody, parentPieces_append hm hn, Option.map_some, hsame]
    next h =>
      obtain ⟨hfirst, hbody⟩ := List.cons.inj (List.cons_append ▸ h)
      rw [← hbody, parentPieces_append hm hn]
      simp only [← hfirst, ← List.cons_append, hsame]
    next => rw [parentPieces_append hm hn, Option.map_some, hsame]

/-! ## Several names -/

theorem isAbsolute_of_plain {name : String} (h : Plain name) (rest : String) :
    (Path.mk (name ++ rest)).isAbsolute = false := by
  have hrelative := h.descends.relative
  cases hcs : name.toList with
  | nil => exact absurd (String.toList_eq_nil_iff.1 hcs) h.ne
  | cons c cs => simpa [isAbsolute, hcs] using hrelative

theorem isAbsolute_intercalate {name : String} (h : Plain name) (names : List String) :
    (Path.mk ("/".intercalate (name :: names))).isAbsolute = false := by
  cases names with
  | nil =>
    rw [String.intercalate_singleton]
    exact h.descends.relative
  | cons next names =>
    rw [String.intercalate_cons_of_ne_nil (by simp), String.append_assoc]
    exact isAbsolute_of_plain h _

theorem join_slash {name rest : String} (h : Plain name) (p : Path)
    (hrest : (Path.mk rest).isAbsolute = false) :
    p.join ⟨name ++ "/" ++ rest⟩ = (p.child name).join ⟨rest⟩ := by
  have hlong : (Path.mk (name ++ "/" ++ rest)).isAbsolute = false := by
    rw [String.append_assoc]
    exact isAbsolute_of_plain h _
  rw [join, hlong, join, hrest, isEmpty_child h, endsInSlash_child h]
  rcases text_child h p with ⟨htext, hp⟩ | ⟨htext, hempty, hslash⟩
  · have hor : (p.isEmpty || p.endsInSlash) = true := by simpa using hp
    simp [hor, htext, String.append_assoc]
  · simp [hempty, hslash, htext, String.append_assoc]

def descend (p : Path) (names : List String) : Path := names.foldl child p

section Descend

variable {names : List String} (h : ∀ name ∈ names, Plain name) (p : Path)

theorem descend_descend (p : Path) (names names' : List String) :
    (p.descend names).descend names' = p.descend (names ++ names') := by
  rw [descend, descend, descend, List.foldl_append]

theorem descend_append (p : Path) (names : List String) (name : String) :
    p.descend (names ++ [name]) = (p.descend names).child name := by
  rw [descend, List.foldl_append]
  rfl

include h

theorem components_descend : (p.descend names).components = p.components ++ names := by
  induction names generalizing p with
  | nil => simp [descend]
  | cons name names ih =>
    rw [List.forall_mem_cons] at h
    rw [descend, List.foldl_cons, ← descend, ih h.2, components_child h.1, List.append_assoc]
    rfl

theorem isAbsolute_descend : (p.descend names).isAbsolute = p.isAbsolute := by
  induction names generalizing p with
  | nil => rfl
  | cons name names ih =>
    rw [List.forall_mem_cons] at h
    rw [descend, List.foldl_cons, ← descend, ih h.2, isAbsolute_child h.1]

theorem key_descend (working : Key) : (p.descend names).key working = p.key working ++ names := by
  induction names generalizing p with
  | nil => simp [descend]
  | cons name names ih =>
    rw [List.forall_mem_cons] at h
    rw [descend, List.foldl_cons, ← descend, ih h.2, key_child h.1, List.append_assoc]
    rfl

theorem names_descend : (p.descend names).names = names.reverse ++ p.names := by
  induction names generalizing p with
  | nil => rfl
  | cons name names ih =>
    rw [List.forall_mem_cons] at h
    rw [descend, List.foldl_cons, ← descend, ih h.2, names_child h.1, List.reverse_cons,
      List.append_assoc]
    rfl

theorem parent?_descend {name : String} (hname : Plain name) (hne : names ≠ []) :
    (p.descend (names ++ [name])).parent? = some (p.descend names) := by
  obtain ⟨front, last, rfl⟩ := List.eq_nil_or_concat names |>.resolve_left hne
  rw [List.concat_eq_append] at h ⊢
  rw [descend_append, descend_append]
  exact parent?_child_child (h last (by simp)) hname _

theorem join_intercalate (hne : names ≠ []) :
    p.join ⟨"/".intercalate names⟩ = p.descend names := by
  induction names generalizing p with
  | nil => exact absurd rfl hne
  | cons name names ih =>
    rw [List.forall_mem_cons] at h
    rw [descend, List.foldl_cons, ← descend]
    cases names with
    | nil => rw [String.intercalate_singleton]; rfl
    | cons next names =>
      rw [String.intercalate_cons_of_ne_nil (by simp), join_slash h.1, ih h.2 _ (by simp)]
      exact isAbsolute_intercalate (h.2 next (by simp)) names

end Descend

end Path

namespace Place

theorem plain_of_mem_componentsOf {place : Place} (hp : place.Proper) {extension c : String}
    (he : '/' ∉ extension.toList) (hc : c ∈ componentsOf (ending extension) place.segments) :
    Path.Plain c := by
  obtain ⟨x, xs, hcs, hx⟩ := head_component hp hc
  have hslash : '/' ∉ c.toList := by
    rw [← pieces_relative hp he, Path.pieces, Text.parts] at hc
    obtain ⟨cs, hsplit, rfl⟩ := List.mem_map.1 hc
    rw [String.toList_ofList]
    exact Text.not_mem_of_mem_split '/' _ cs hsplit
  refine ⟨?_, hslash, ?_, ?_⟩ <;>
  · rintro rfl
    simp at hcs
    try exact hx hcs.1.symm

theorem within_eq_descend {place : Place} (hp : place.Proper) {extension : String}
    (he : '/' ∉ extension.toList) (dir : Path) :
    place.within dir extension =
      dir.descend (componentsOf (ending extension) place.segments) := by
  have hne : componentsOf (ending extension) place.segments ≠ [] := by
    rw [← List.length_pos_iff, length_componentsOf, List.length_pos_iff]
    exact hp.nonempty
  have htext : place.relative extension =
      ⟨"/".intercalate (componentsOf (ending extension) place.segments)⟩ := by
    rw [← pieces_relative hp he, Path.intercalate_pieces]
  rw [within, htext]
  exact Path.join_intercalate (fun c hc => plain_of_mem_componentsOf hp he hc) dir hne

theorem componentsOf_append (ending : String) (before : List String) (last : String) :
    componentsOf ending (before ++ [last]) = before ++ [last ++ ending] := by
  induction before with
  | nil => rfl
  | cons s ss ih =>
    cases ss with
    | nil => rfl
    | cons r ss =>
      rw [List.cons_append, List.cons_append, componentsOf]
      rw [List.cons_append] at ih
      rw [ih]
      rfl

theorem ofName_of_segmentsOf {place : Place} (hp : place.Proper) {name : String}
    (hsegments : segmentsOf name = place.segments) : ofName name = .ok place := by
  have hslash : place.segments.find? hasSlash = none := by
    rw [List.find?_eq_none]
    simpa [hasSlash] using hp.slash
  rw [ofName, hsegments]
  split
  next hnil => exact absurd hnil hp.nonempty
  next => rw [hslash]

theorem segments_of_ofName {name : String} {place : Place} (h : ofName name = .ok place) :
    place.segments = segmentsOf name := by
  rw [ofName] at h
  split at h
  next => cases h
  next =>
    split at h
    next => cases h
    next =>
      cases h
      rfl

theorem subset_of_mem_segmentsOf {name segment : String} (h : segment ∈ segmentsOf name) :
    segment.toList ⊆ name.toList := by
  rw [segmentsOf, List.mem_filter] at h
  obtain ⟨part, hpart, rfl⟩ := List.mem_map.1 h.1
  rw [String.toList_ofList]
  exact Text.subset_of_mem_split hpart

theorem ofName_intercalate {place : Place} (hp : place.Proper) :
    ofName (".".intercalate place.segments) = .ok place := by
  apply ofName_of_segmentsOf hp
  rw [segmentsOf, Text.parts_intercalate rfl hp.nonempty hp.dot, List.filter_eq_self]
  simpa using hp.ne

theorem Proper.stem {place : Place} (hp : place.Proper) : ∀ s ∈ place.segments, Path.Stem s :=
  fun s hs => ⟨hp.ne s hs, hp.slash s hs, hp.dot s hs⟩

/-- A name with one dot tells what stands before and after it. -/
theorem eq_of_append_ending {stem stem' extension extension' : String}
    (h : stem ++ ending extension = stem' ++ ending extension') (hs : '.' ∉ stem.toList)
    (hs' : '.' ∉ stem'.toList) (he : extension ≠ "") (he' : extension' ≠ "") :
    stem = stem' ∧ extension = extension' := by
  have hchars : stem.toList ++ '.' :: extension.toList = stem'.toList ++ '.' :: extension'.toList := by
    simpa [ending, he, he'] using congrArg String.toList h
  have hsplit := congrArg (Text.split '.') hchars
  rw [Text.split_append, Text.split_append, Text.split_of_not_mem '.' _ hs,
    Text.split_of_not_mem '.' _ hs'] at hsplit
  have hstem : stem.toList = stem'.toList := (List.cons.inj hsplit).1
  rw [hstem, List.append_cancel_left_eq, List.cons.injEq] at hchars
  exact ⟨String.toList_inj.1 hstem, String.toList_inj.1 hchars.2⟩

/-- A file of a place lies in directories that have no dot in their names. -/
theorem exists_file {place : Place} (hp : place.Proper) {extension : String}
    (he : '/' ∉ extension.toList) : ∃ front last, place.segments = front ++ [last] ∧
      (∀ n ∈ front, Path.Stem n) ∧ Path.Plain (last ++ ending extension) ∧
      ∀ dir : Path, place.within dir extension =
        dir.descend (front ++ [last ++ ending extension]) := by
  obtain ⟨front, last, hsegments⟩ :=
    List.eq_nil_or_concat place.segments |>.resolve_left hp.nonempty
  rw [List.concat_eq_append] at hsegments
  have hcomponents := hsegments ▸ componentsOf_append (ending extension) front last
  refine ⟨front, last, hsegments, fun n hn => ?_, ?_, fun dir => ?_⟩
  · exact hp.stem n (hsegments ▸ List.mem_append_left _ hn)
  · apply plain_of_mem_componentsOf hp he
    rw [hcomponents]
    simp
  · rw [within_eq_descend hp he, hcomponents]

/-- Files of different extensions have different keys, whichever places and directories are
theirs. -/
theorem key_within_ne (working : Key) (dir dir' : Path) {p q : Place} (hp : p.Proper)
    (hq : q.Proper) {extension extension' : String} (he : '/' ∉ extension.toList)
    (he' : '/' ∉ extension'.toList) (hne : extension ≠ "") (hne' : extension' ≠ "")
    (h : extension ≠ extension') :
    (p.within dir extension).key working ≠ (q.within dir' extension').key working := by
  intro heq
  obtain ⟨front, last, hlast, -⟩ := exists_file hp he
  obtain ⟨front', last', hlast', -⟩ := exists_file hq he'
  have hdot : '.' ∉ last.toList := (hp.stem last (by simp [hlast])).dot
  have hdot' : '.' ∉ last'.toList := (hq.stem last' (by simp [hlast'])).dot
  rw [key_within working dir hp he, key_within working dir' hq he', hlast, hlast',
    componentsOf_append, componentsOf_append, ← List.append_assoc, ← List.append_assoc] at heq
  have hnames := (List.cons.inj (List.append_inj' heq rfl).2).1
  exact h (eq_of_append_ending hnames hdot hdot' hne hne').2

theorem componentsOf_empty (segments : List String) : componentsOf "" segments = segments := by
  induction segments with
  | nil => rfl
  | cons s ss ih =>
    cases ss with
    | nil => simp [componentsOf]
    | cons r ss => rw [componentsOf, ih]

end Place

end Trainyard
