import Trainyard.Proofs.Binary
import Trainyard.Proofs.Tree.Levels
import Trainyard.Tree.Binary

/-!
# The bytes of a tree say the tree

A written tree is read back from its bytes, more bytes are noticed and counted, and
fewer are no tree. The writer knows lengths of up to 64 bits, so all lengths in the
tree have to be of that size.
-/

set_option autoImplicit false

namespace Trainyard

/-! ## Lengths that can be written -/

structure Attributes.Fits (a : Attributes) : Prop where
  count : a.entries.length < UInt64.size
  texts : ∀ e ∈ a.entries, Binary.Fits e.1 ∧ Binary.Fits e.2

structure Diagnostic.Fits (d : Diagnostic) : Prop where
  message : Binary.Fits d.message
  step : ∀ s ∈ d.step, Binary.Fits s

inductive Node.Fits : Node → Prop
  | mk {kind : String} {attributes : Attributes} {children : List Node}
      (hkind : Binary.Fits kind) (hattributes : attributes.Fits)
      (hcount : children.length < UInt64.size) (hchildren : ∀ c ∈ children, Fits c) :
      Fits (.mk kind attributes children)

structure Tree.Fits (t : Tree) : Prop where
  attributes : t.attributes.Fits
  objectCount : t.objects.toList.length < UInt64.size
  objects : ∀ n ∈ t.objects.toList, n.Fits
  errorCount : t.errors.toList.length < UInt64.size
  errors : ∀ d ∈ t.errors.toList, d.Fits

theorem Tree.fits_empty : Tree.empty.Fits :=
  ⟨⟨by decide, by simp [empty, Attributes.empty]⟩, by decide, by simp [empty], by decide,
    by simp [empty]⟩

theorem Tree.fits_ofName {name : String} (h : Binary.Fits name) : (Tree.ofName name).Fits := by
  have hkey : Binary.Fits nameKey := by decide
  have hcount : 1 < UInt64.size := by decide
  refine ⟨⟨hcount, fun e he => ?_⟩, fits_empty.objectCount, fits_empty.objects,
    fits_empty.errorCount, fits_empty.errors⟩
  obtain rfl : e = (nameKey, name) := List.mem_singleton.1 he
  exact ⟨hkey, h⟩

theorem Tree.Fits.addError {t : Tree} {d : Diagnostic} (h : t.Fits) (hd : d.Fits)
    (hcount : t.errors.toList.length + 1 < UInt64.size) : (t.addError d).Fits := by
  refine ⟨h.attributes, h.objectCount, h.objects, ?_, fun e he => ?_⟩
  · rw [Tree.addError, Series.toList_push, List.length_append]
    exact hcount
  · rw [Tree.addError, Series.toList_push, List.mem_append, List.mem_singleton] at he
    rcases he with he | rfl
    · exact h.errors e he
    · exact hd

/-! ## Attributes and diagnostics -/

namespace Attributes

theorem extends_readBinary : Binary.Extends readBinary readBinary :=
  Binary.extends_bind
    (Binary.extends_readList
      (Binary.extends_bind Binary.extends_readText fun k =>
        Binary.extends_bind Binary.extends_readText fun v => Binary.extends_some (k, v)))
    fun pairs => Binary.extends_some (ofList pairs)

theorem readBinary_writeBinary (a : Attributes) (h : a.Fits) (rest : Bytes) :
    readBinary (a.writeBinary rest) = some (a, rest) := by
  rw [readBinary, writeBinary, Binary.readList_list _ _ a.entries rest h.count]
  · simp [ofList_entries]
  · intro e he tail
    obtain ⟨hk, hv⟩ := h.texts e he
    simp [Binary.readText_text e.1 _ hk, Binary.readText_text e.2 _ hv]

theorem lt_length_writeBinary (a : Attributes) (rest : Bytes) :
    rest.length < (a.writeBinary rest).length := by
  refine Nat.lt_of_le_of_lt (Binary.le_length_foldr ?_ a.entries rest)
    (Binary.length_foldr_lt_list _ a.entries rest)
  intro e rest
  have hv := Binary.lt_length_text e.2 rest
  have hk := Binary.lt_length_text e.1 (Binary.text e.2 rest)
  omega

end Attributes

namespace Diagnostic

theorem extends_readLocation : Binary.Extends readLocation readLocation :=
  Binary.extends_bind (Binary.extends_readNat false) fun line =>
    Binary.extends_bind (Binary.extends_readNat false) fun column =>
      Binary.extends_some (Location.mk (UInt32.ofNat line) (UInt32.ofNat column))

theorem extends_readBinary : Binary.Extends readBinary readBinary :=
  Binary.extends_bind (Binary.extends_readNat false) fun rank =>
    Binary.extends_check (Severity.ofRank? rank) fun severity =>
      Binary.extends_bind Binary.extends_readText fun message =>
        Binary.extends_bind (Binary.extends_readOption extends_readLocation) fun location =>
          Binary.extends_bind (Binary.extends_readOption Binary.extends_readText) fun step =>
            Binary.extends_some (Diagnostic.mk severity message location step)

theorem readLocation_writeLocation (l : Location) (rest : Bytes) :
    readLocation (writeLocation l rest) = some (l, rest) := by
  have hl := Binary.readNat_nat false l.line.toNat
    (Binary.nat l.column.toNat rest) l.line.toNat_lt
  have hc := Binary.readNat_nat false l.column.toNat rest l.column.toNat_lt
  simp [readLocation, writeLocation, Binary.readWord, hl, hc]

theorem readBinary_writeBinary (d : Diagnostic) (h : d.Fits) (rest : Bytes) :
    readBinary (d.writeBinary rest) = some (d, rest) := by
  have hrank (tail : Bytes) : Binary.readWord (Binary.nat d.severity.rank tail) =
      some (d.severity.rank, tail) :=
    Binary.readNat_nat false _ tail (by cases d.severity <;> decide)
  have hstep := Binary.readOption_option Binary.text Binary.readText d.step rest
    fun s hs => Binary.readText_text s rest (h.step s hs)
  have hlocation (tail : Bytes) := Binary.readOption_option writeLocation readLocation d.location tail
    fun l _ => readLocation_writeLocation l tail
  simp [readBinary, writeBinary, hrank, Severity.ofRank?_rank,
    Binary.readText_text d.message _ h.message, hlocation, hstep]

end Diagnostic

/-! ## Nodes -/

namespace Node

theorem writeAll_eq_foldr (ns : List Node) (rest : Bytes) :
    writeAll ns rest = ns.foldr writeBinary rest := by
  induction ns with
  | nil => rfl
  | cons n ns ih => rw [writeAll, ih, List.foldr_cons]

theorem extends_readWithin {d d' : Nat} (h : d ≤ d') :
    Binary.Extends (readWithin d) (readWithin d') := by
  induction d generalizing d' with
  | zero => intro b n rest tail hb; simp [readWithin] at hb
  | succ d ih =>
    obtain ⟨d', rfl⟩ : ∃ k, d' = k + 1 := ⟨d' - 1, by omega⟩
    exact Binary.extends_bind Binary.extends_readText fun kind =>
      Binary.extends_bind Attributes.extends_readBinary fun attributes =>
        Binary.extends_bind (Binary.extends_readList (ih (by omega))) fun children =>
          Binary.extends_some (Node.mk kind attributes children)

theorem readWithin_writeBinary {n : Node} (h : n.Fits) {depth : Nat} (hd : n.levels ≤ depth)
    (rest : Bytes) : readWithin depth (n.writeBinary rest) = some (n, rest) := by
  induction h generalizing depth rest with
  | @mk kind attributes children hkind hattributes hcount _ ih =>
    rw [levels] at hd
    obtain ⟨depth, rfl⟩ : ∃ k, depth = k + 1 := ⟨depth - 1, by omega⟩
    have hall := Binary.readList_list writeBinary (readWithin depth) children rest hcount
      fun c hc tail => ih c hc (Nat.le_trans (levels_le_levelsAll hc) (by omega)) tail
    rw [Binary.list] at hall
    rw [writeBinary, writeAll_eq_foldr]
    simp [readWithin, Binary.readText_text kind _ hkind,
      attributes.readBinary_writeBinary hattributes, hall]

theorem levels_add_length_le (n : Node) (rest : Bytes) :
    n.levels + rest.length ≤ (n.writeBinary rest).length := by
  induction n using induct generalizing rest with
  | mk kind attributes children ih =>
    have hall : levelsAll children + rest.length ≤ (writeAll children rest).length := by
      induction children with
      | nil => simp [levelsAll, writeAll]
      | cons c cs ihs =>
        have hc := ih c (by simp) (writeAll cs rest)
        have hcs := ihs fun d hd => ih d (by simp [hd])
        rw [levelsAll, writeAll]
        omega
    have hkind := Binary.lt_length_text kind (attributes.writeBinary
      (Binary.nat children.length (writeAll children rest)))
    have hattributes := attributes.lt_length_writeBinary
      (Binary.nat children.length (writeAll children rest))
    have hcount := Binary.lt_length_nat children.length (writeAll children rest)
    rw [levels, writeBinary]
    omega

theorem levelsAll_add_length_le (ns : List Node) (rest : Bytes) :
    levelsAll ns + rest.length ≤ (ns.foldr writeBinary rest).length := by
  induction ns with
  | nil => simp [levelsAll]
  | cons n ns ih =>
    have hn := n.levels_add_length_le (ns.foldr writeBinary rest)
    rw [levelsAll, List.foldr_cons]
    omega

end Node

/-! ## Trees -/

namespace Tree

theorem extends_readWithin {d d' : Nat} (h : d ≤ d') :
    Binary.Extends (readWithin d) (readWithin d') :=
  Binary.extends_bind Attributes.extends_readBinary fun attributes =>
    Binary.extends_bind (Binary.extends_readList (Node.extends_readWithin h)) fun objects =>
      Binary.extends_bind (Binary.extends_readList Diagnostic.extends_readBinary) fun errors =>
        Binary.extends_some (Tree.mk attributes (.ofList objects) (.ofList errors))

theorem extends_readBinary : Binary.Extends readBinary readBinary := by
  intro b t rest tail h
  exact extends_readWithin (by simp) b t rest tail h

theorem levels_le_length_toBinary (t : Tree) : t.levels ≤ t.toBinary.length := by
  have hattributes := t.attributes.lt_length_writeBinary
    (Binary.list Node.writeBinary t.objects.toList
      (Binary.list Diagnostic.writeBinary t.errors.toList []))
  have hobjects := Binary.length_foldr_lt_list Node.writeBinary t.objects.toList
    (Binary.list Diagnostic.writeBinary t.errors.toList [])
  have hnodes := Node.levelsAll_add_length_le t.objects.toList
    (Binary.list Diagnostic.writeBinary t.errors.toList [])
  rw [levels, toBinary, writeBinary]
  omega

theorem readBinary_toBinary (t : Tree) (h : t.Fits) : readBinary t.toBinary = some (t, []) := by
  have hdepth := t.levels_le_length_toBinary
  have hobjects (tail : Bytes) := Binary.readList_list Node.writeBinary
    (Node.readWithin t.toBinary.length) t.objects.toList tail h.objectCount
    fun n hn => Node.readWithin_writeBinary (h.objects n hn)
      (Nat.le_trans (Node.levels_le_levelsAll hn) hdepth)
  have herrors := Binary.readList_list Diagnostic.writeBinary Diagnostic.readBinary
    t.errors.toList [] h.errorCount fun d hd => d.readBinary_writeBinary (h.errors d hd)
  rw [readBinary, readWithin]
  generalize t.toBinary.length = depth at hobjects
  rw [toBinary, writeBinary]
  simp [t.attributes.readBinary_writeBinary h.attributes, hobjects, herrors]

theorem ofBinary_toBinary (t : Tree) (h : t.Fits) : ofBinary t.toBinary = .ok t := by
  simp [ofBinary, t.readBinary_toBinary h]

/-- The bytes of a tree are no proper beginning of the bytes of another one. -/
theorem readBinary_front_eq_none {t : Tree} (h : t.Fits) {front back : Bytes}
    (hback : back ≠ []) (hsplit : t.toBinary = front ++ back) : readBinary front = none := by
  cases hread : readBinary front with
  | none => rfl
  | some found =>
    obtain ⟨t', rest⟩ := found
    have hlong := extends_readBinary front t' rest back hread
    rw [← hsplit, t.readBinary_toBinary h] at hlong
    have hrest : [] = rest ++ back := congrArg Prod.snd (Option.some.inj hlong)
    exact absurd (List.append_eq_nil_iff.1 hrest.symm).2 hback

/-- Written trees are read back, what follows one is counted, and what is cut short is refused. -/
theorem ofBinary_delimits (t : Tree) (h : t.Fits) :
    ofBinary t.toBinary = .ok t ∧
    (∀ s : Bytes, s ≠ [] → ofBinary (t.toBinary ++ s) = .error (.trailing s.length) ∧
      (EncodingError.trailing s.length).message = toString s.length ++ " trailing bytes") ∧
    ∀ front back : Bytes, back ≠ [] → t.toBinary = front ++ back →
      ofBinary front = .error .malformed := by
  refine ⟨t.ofBinary_toBinary h, ?_, ?_⟩
  · intro s hs
    have hlong := extends_readBinary t.toBinary t [] s (t.readBinary_toBinary h)
    refine ⟨?_, rfl⟩
    cases s with
    | nil => exact absurd rfl hs
    | cons x s => simp [ofBinary, hlong]
  · intro front back hback hsplit
    simp [ofBinary, readBinary_front_eq_none h hback hsplit]

theorem ofBinary_delimits_nested :
    let t : Tree := ⟨.ofList [("name", "org.é")],
      .ofList [.mk "o" .empty [.mk "p" (.ofList [("", "")]) []]],
      .ofList [⟨.critical, "lost", some ⟨70000, 251⟩, some "s"⟩]⟩
    t.Fits ∧ ofBinary t.toBinary = .ok t ∧
      ofBinary (t.toBinary ++ [0]) = .error (.trailing 1) ∧
      ofBinary (t.toBinary.take 20) = .error .malformed := by
  intro t
  have empty : (Attributes.empty).Fits := ⟨by decide, nofun⟩
  have single : (Attributes.ofList [("", "")]).Fits := ⟨by decide, by unfold Binary.Fits; decide⟩
  have inner : (Node.mk "p" (.ofList [("", "")]) []).Fits := .mk (by decide) single (by decide) nofun
  have outer : (Node.mk "o" .empty [.mk "p" (.ofList [("", "")]) []]).Fits :=
    .mk (by decide) empty (by decide) (List.forall_mem_singleton.2 inner)
  have fits : t.Fits :=
    ⟨⟨by decide, by unfold Binary.Fits; decide⟩, by decide, List.forall_mem_singleton.2 outer,
      by decide, List.forall_mem_singleton.2 ⟨by decide, by unfold Binary.Fits; decide⟩⟩
  obtain ⟨whole, more, less⟩ := ofBinary_delimits t fits
  exact ⟨fits, whole, (more [0] (by simp)).1,
    less _ (t.toBinary.drop 20) (by decide) (List.take_append_drop 20 _).symm⟩

end Tree

end Trainyard
