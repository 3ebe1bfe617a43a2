import Trainyard.Place
import Trainyard.Proofs.FileSystem.Items

/-!
# Keys of places

A path joined to a directory leads below the key of the directory, one name per
component. The components of a place are its segments, the last one with the
extension. No segment has a dot in it, so different places have different keys.
-/

set_option autoImplicit false

namespace Trainyard

/-! ## Joined paths -/

namespace Path

theorem pieces_slash (a b : String) :
    (Path.mk (a ++ "/" ++ b)).pieces = (Path.mk a).pieces ++ (Path.mk b).pieces := by
  have hsplit : Text.split '/' (a ++ "/" ++ b).toList =
      Text.split '/' a.toList ++ Text.split '/' b.toList := by
    rw [← Text.split_append]
    simp
  simp only [pieces, Text.parts, hsplit, List.map_append]

theorem components_slash (a b : String) :
    (Path.mk (a ++ "/" ++ b)).components = (Path.mk a).components ++ (Path.mk b).components := by
  rw [components, pieces_slash, List.filter_append]
  rfl

theorem exists_of_endsInSlash {p : Path} (h : p.endsInSlash = true) : ∃ a, p = ⟨a ++ "/"⟩ := by
  obtain ⟨text⟩ := p
  have hlast : text.toList.getLast? = some '/' := by simpa [endsInSlash] using h
  obtain ⟨cs, hcs⟩ := List.getLast?_eq_some_iff.1 hlast
  refine ⟨String.ofList cs, ?_⟩
  rw [Path.mk.injEq, ← String.toList_inj, hcs]
  simp

theorem components_empty : (Path.mk "").components = [] := by decide

theorem components_join (p : Path) {q : Path} (hq : q.isAbsolute = false) :
    (p.join q).components = p.components ++ q.components := by
  rw [join, if_neg (by simp [hq])]
  split
  next h =>
    rcases Bool.or_eq_true _ _ ▸ h with hempty | hslash
    · have htext : p.text = "" := by simpa [isEmpty] using hempty
      obtain ⟨text⟩ := p
      subst htext
      rw [components_empty, String.empty_append, List.nil_append]
    · obtain ⟨a, rfl⟩ := exists_of_endsInSlash hslash
      have ha : (Path.mk (a ++ "/")).components = (Path.mk a).components := by
        have := components_slash a ""
        rwa [String.append_empty, components_empty, List.append_nil] at this
      rw [ha, components_slash a q.text]
  next => exact components_slash p.text q.text

theorem isAbsolute_join (p : Path) {q : Path} (hq : q.isAbsolute = false) :
    (p.join q).isAbsolute = p.isAbsolute := by
  rw [join, if_neg (by simp [hq])]
  obtain ⟨text⟩ := p
  cases hcs : text.toList with
  | nil =>
    have htext : text = "" := by rwa [← String.toList_eq_nil_iff]
    subst htext
    simpa [isEmpty, isAbsolute] using hq
  | cons c cs => split <;> simp [isAbsolute, hcs]

structure Descends (q : Path) : Prop where
  relative : q.isAbsolute = false
  down : ∀ c ∈ q.components, c ≠ "." ∧ c ≠ ".."

theorem foldl_climb {cs : List String} (h : ∀ c ∈ cs, c ≠ "." ∧ c ≠ "..") (names : List String) :
    cs.foldl climb names = cs.reverse ++ names := by
  induction cs generalizing names with
  | nil => rfl
  | cons c cs ih =>
    obtain ⟨hdot, hdots⟩ := h c (by simp)
    rw [List.foldl_cons, climb, if_neg hdot, if_neg hdots, ih fun d hd => h d (by simp [hd])]
    simp

theorem key_join (working : Key) (p : Path) {q : Path} (hq : q.Descends) :
    (p.join q).key working = p.key working ++ q.components := by
  rw [key, trail, isAbsolute_join p hq.relative, components_join p hq.relative,
    List.foldl_append, foldl_climb hq.down, List.reverse_append, List.reverse_reverse]
  rfl

theorem components_name {name : String} (hne : name ≠ "") (hslash : '/' ∉ name.toList) :
    (Path.mk name).components = [name] := by
  simp [components, pieces, Text.parts, Text.split_of_not_mem '/' name.toList hslash, hne]

theorem descends_name {name : String} (hne : name ≠ "") (hslash : '/' ∉ name.toList)
    (hdot : name ≠ ".") (hdots : name ≠ "..") : (Path.mk name).Descends := by
  refine ⟨?_, fun c hc => ?_⟩
  · have hhead : name.toList.head? ≠ some '/' := fun h => hslash (List.mem_of_head? h)
    simpa [isAbsolute] using hhead
  · rw [components_name hne hslash, List.mem_singleton] at hc
    exact hc ▸ ⟨hdot, hdots⟩

end Path

/-! ## Places -/

namespace Place

structure Proper (p : Place) : Prop where
  nonempty : p.segments ≠ []
  ne : ∀ s ∈ p.segments, s ≠ ""
  dot : ∀ s ∈ p.segments, '.' ∉ s.toList
  slash : ∀ s ∈ p.segments, '/' ∉ s.toList

def componentsOf (ending : String) : List String → List String
  | [] => []
  | [s] => [s ++ ending]
  | s :: r :: ss => s :: componentsOf ending (r :: ss)

end Place

theorem Text.not_mem_of_mem_split (sep : Char) (cs part : List Char)
    (h : part ∈ Text.split sep cs) : sep ∉ part := by
  induction cs generalizing part with
  | nil => simp_all [Text.split]
  | cons c r ih =>
    rw [Text.split_cons] at h
    cases hsplit : Text.split sep r with
    | nil => exact absurd hsplit (Text.split_ne_nil sep r)
    | cons p ps =>
      rw [hsplit] at ih
      rw [hsplit, Text.prepend] at h
      split at h
      next => rcases List.mem_cons.1 h with rfl | h
              · simp
              · exact ih part h
      next hc =>
        rcases List.mem_cons.1 h with rfl | h
        · have hp := ih p (by simp)
          simp [hp, Ne.symm hc]
        · exact ih part (by simp [h])

theorem Text.subset_of_mem_split {sep : Char} {cs part : List Char}
    (h : part ∈ Text.split sep cs) : part ⊆ cs := by
  induction cs generalizing part with
  | nil => simp_all [Text.split]
  | cons c r ih =>
    rw [Text.split_cons] at h
    cases hsplit : Text.split sep r with
    | nil => exact absurd hsplit (Text.split_ne_nil sep r)
    | cons p ps =>
      rw [hsplit] at ih
      rw [hsplit, Text.prepend] at h
      split at h
      next =>
        rcases List.mem_cons.1 h with rfl | h
        · exact List.nil_subset _
        · exact List.Subset.trans (ih h) (List.subset_cons_self c r)
      next =>
        rcases List.mem_cons.1 h with rfl | h
        · exact List.cons_subset_cons c (ih List.mem_cons_self)
        · exact List.Subset.trans (ih (List.mem_cons_of_mem p h)) (List.subset_cons_self c r)

namespace Place

theorem proper_of_ofName {name : String} {p : Place} (h : ofName name = .ok p) : p.Proper := by
  have hsegments : ∀ s ∈ segmentsOf name, s ≠ "" ∧ '.' ∉ s.toList := by
    intro s hs
    rw [segmentsOf, List.mem_filter] at hs
    obtain ⟨hs, hne⟩ := hs
    obtain ⟨cs, hcs, rfl⟩ := List.mem_map.1 hs
    refine ⟨by simpa using hne, ?_⟩
    rw [String.toList_ofList]
    exact Text.not_mem_of_mem_split '.' _ cs hcs
  rw [ofName] at h
  split at h
  next => simp at h
  next segments hnonempty =>
    split at h
    next => simp at h
    next hfind =>
      cases h
      refine ⟨hnonempty, fun s hs => (hsegments s hs).1, fun s hs => (hsegments s hs).2, ?_⟩
      intro s hs
      simpa [hasSlash] using List.find?_eq_none.1 hfind s hs

theorem split_intercalate {ss : List String} (hne : ss ≠ []) (hs : ∀ s ∈ ss, '/' ∉ s.toList)
    {ending : String} (he : '/' ∉ ending.toList) :
    Text.split '/' (("/".intercalate ss).toList ++ ending.toList) =
      (componentsOf ending ss).map String.toList := by
  induction ss with
  | nil => exact absurd rfl hne
  | cons s ss ih =>
    have hslash := hs s (by simp)
    cases ss with
    | nil =>
      have hall : '/' ∉ s.toList ++ ending.toList := by simp [hslash, he]
      simp [componentsOf, Text.split_of_not_mem _ _ hall]
    | cons r ss =>
      have hrest := ih (by simp) fun q hq => hs q (by simp [hq])
      rw [String.toList_intercalate] at hrest ⊢
      rw [List.map_cons, List.map_cons, List.intercalate_cons_cons, componentsOf, List.map_cons,
        ← hrest, List.map_cons]
      have hcut := Text.split_append '/' s.toList
        (("/".toList).intercalate (r.toList :: ss.map String.toList) ++ ending.toList)
      rw [Text.split_of_not_mem '/' s.toList hslash] at hcut
      simpa using hcut

theorem exists_segment {ending : String} {ss : List String} {c : String}
    (hc : c ∈ componentsOf ending ss) : ∃ s ∈ ss, ∃ tail, c = s ++ tail := by
  induction ss with
  | nil => simp [componentsOf] at hc
  | cons s ss ih =>
    cases ss with
    | nil => exact ⟨s, by simp, ending, by simpa [componentsOf] using hc⟩
    | cons r ss =>
      rcases List.mem_cons.1 hc with rfl | hc
      · exact ⟨c, by simp, "", by simp⟩
      · obtain ⟨q, hq, tail, rfl⟩ := ih hc
        exact ⟨q, by simp [hq], tail, rfl⟩

theorem length_componentsOf (ending : String) (ss : List String) :
    (componentsOf ending ss).length = ss.length := by
  induction ss with
  | nil => rfl
  | cons s ss ih =>
    cases ss with
    | nil => rfl
    | cons r ss => rw [componentsOf, List.length_cons, ih]; rfl

theorem componentsOf_injective {ending : String} {ss ss' : List String}
    (h : componentsOf ending ss = componentsOf ending ss') : ss = ss' := by
  induction ss generalizing ss' with
  | nil =>
    have hlength := congrArg List.length h
    rw [length_componentsOf, length_componentsOf] at hlength
    exact (List.length_eq_zero_iff.1 hlength.symm).symm
  | cons s ss ih =>
    have hlength := congrArg List.length h
    rw [length_componentsOf, length_componentsOf] at hlength
    match ss, ss', hlength with
    | [], [s'], _ =>
      rw [componentsOf, componentsOf, List.cons.injEq] at h
      rw [(String.append_left_inj ending).1 h.1]
    | r :: ss, s' :: r' :: ss', _ =>
      rw [componentsOf, componentsOf, List.cons.injEq] at h
      rw [h.1, ih h.2]

def ending (extension : String) : String := if extension = "" then "" else "." ++ extension

theorem text_relative (p : Place) (extension : String) :
    (p.relative extension).text = "/".intercalate p.segments ++ ending extension := by
  simp only [relative, ending]
  split
  · rw [String.append_empty]
  · rw [String.append_assoc]

theorem pieces_relative {p : Place} (hp : p.Proper) {extension : String}
    (he : '/' ∉ extension.toList) :
    (p.relative extension).pieces = componentsOf (ending extension) p.segments := by
  have hending : '/' ∉ (ending extension).toList := by
    rw [ending]
    split <;> simp [he]
  rw [Path.pieces, Text.parts, text_relative, String.toList_append,
    split_intercalate hp.nonempty hp.slash hending, List.map_map]
  exact List.map_id'' (fun c => String.ofList_toList) _

theorem head_component {p : Place} (hp : p.Proper) {end' c : String}
    (hc : c ∈ componentsOf end' p.segments) : ∃ x xs, c.toList = x :: xs ∧ x ≠ '.' := by
  obtain ⟨s, hs, tail, rfl⟩ := exists_segment hc
  cases hcs : s.toList with
  | nil => exact absurd (String.toList_eq_nil_iff.1 hcs) (hp.ne s hs)
  | cons x xs =>
    refine ⟨x, xs ++ tail.toList, by simp [hcs], fun hx => hp.dot s hs ?_⟩
    simp [hcs, hx]

theorem components_relative {p : Place} (hp : p.Proper) {extension : String}
    (he : '/' ∉ extension.toList) :
    (p.relative extension).components = componentsOf (ending extension) p.segments := by
  rw [Path.components, pieces_relative hp he, List.filter_eq_self]
  intro c hc
  obtain ⟨x, xs, hcs, -⟩ := head_component hp hc
  have hne : c ≠ "" := by rintro rfl; simp at hcs
  simpa using hne

theorem descends_relative {p : Place} (hp : p.Proper) {extension : String}
    (he : '/' ∉ extension.toList) : (p.relative extension).Descends := by
  refine ⟨?_, fun c hc => ?_⟩
  · -- a slash in front would make the first piece empty
    cases hcs : (p.relative extension).text.toList with
    | nil => simp [Path.isAbsolute, hcs]
    | cons x xs =>
      have hx : x ≠ '/' := by
        rintro rfl
        have hpieces := pieces_relative hp he
        rw [Path.pieces, Text.parts, hcs, Text.split_cons_self, List.map_cons] at hpieces
        obtain ⟨y, ys, hy, -⟩ := head_component hp (hpieces ▸ List.mem_cons_self)
        simp at hy
      simp [Path.isAbsolute, hcs, hx]
  · rw [components_relative hp he] at hc
    obtain ⟨x, xs, hcs, hx⟩ := head_component hp hc
    refine ⟨?_, ?_⟩ <;>
    · rintro rfl
      simp at hcs
      exact hx hcs.1.symm

theorem key_within (working : Key) (dir : Path) {p : Place} (hp : p.Proper) {extension : String}
    (he : '/' ∉ extension.toList) :
    (p.within dir extension).key working =
      dir.key working ++ componentsOf (ending extension) p.segments := by
  rw [within, Path.key_join working dir (descends_relative hp he), components_relative hp he]

theorem eq_of_key_within {working : Key} {dir : Path} {p q : Place} (hp : p.Proper)
    (hq : q.Proper) {extension : String} (he : '/' ∉ extension.toList)
    (h : (p.within dir extension).key working = (q.within dir extension).key working) :
    p = q := by
  rw [key_within working dir hp he, key_within working dir hq he, List.append_cancel_left_eq] at h
  obtain ⟨ss⟩ := p
  rw [Place.mk.injEq]
  exact componentsOf_injective h

end Place

end Trainyard
