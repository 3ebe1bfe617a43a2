import Mathlib
import Trainyard.Proofs.Place.Sharing
import Trainyard.Proofs.Stage.Confine
import Trainyard.Proofs.Text.Hex

/-!
# The text of a digest

A digest is read from 32 hexadecimal digits of either case and from nothing else. Whether a text is
of this kind shows in its bytes: a character beyond the first 128 has a byte that is no digit, so 32
bytes that are digits are 32 characters. The text that is shown for a digest is the one it was read
from, in small letters, so different digests have different texts, and what is filed under them in a
cache lies in different directories.
-/

set_option autoImplicit false

namespace Trainyard

/-! ## Digits as bytes -/

theorem Bytes.ofText_eq_flatMap (s : String) :
    Bytes.ofText s = s.toList.flatMap String.utf8EncodeChar := by
  have hlist (cs : List Char) :
      Bytes.ofText (String.ofList cs) = cs.flatMap String.utf8EncodeChar := by
    simp [Bytes.ofText, Bytes.unpack, List.utf8Encode]
  rw [← hlist, String.ofList_toList]

namespace Text.Hex

def IsDigitByte (b : UInt8) : Prop :=
  (48 ≤ b ∧ b ≤ 57) ∨ (65 ≤ b ∧ b ≤ 70) ∨ (97 ≤ b ∧ b ≤ 102)

instance (b : UInt8) : Decidable (IsDigitByte b) := inferInstanceAs (Decidable (_ ∨ _))

@[elab_as_elim]
theorem IsDigit.elim {P : Nat → Char → Prop} {n : Nat} {c : Char} (h : IsDigit n c)
    (small : ∀ k : Fin 16, P k.val (digit k.val))
    (capital : ∀ k : Fin 16, P k.val (digit k.val).toUpper) : P n c := by
  obtain ⟨hn, rfl | rfl⟩ := h
  · exact small ⟨n, hn⟩
  · exact capital ⟨n, hn⟩

theorem IsDigit.utf8EncodeChar {n : Nat} {c : Char} (h : IsDigit n c) :
    String.utf8EncodeChar c = [UInt8.ofNat c.toNat] ∧ IsDigitByte (UInt8.ofNat c.toNat) :=
  h.elim (by decide) (by decide)

theorem not_isDigitByte_of_later (v : Nat) : ¬ IsDigitByte (UInt8.ofNat (v % 64 + 128)) := by
  have hall : ∀ k : Fin 64, ¬ IsDigitByte (UInt8.ofNat (k.val + 128)) := by decide
  exact hall ⟨v % 64, Nat.mod_lt _ (by decide)⟩

theorem exists_isDigit_of_bytes {c : Char} (h : ∀ b ∈ String.utf8EncodeChar c, IsDigitByte b) :
    ∃ n, IsDigit n c := by
  have hall : ∀ k : Fin 128, IsDigitByte (UInt8.ofNat k.val) →
      (value? (Char.ofNat k.val)).isSome := by decide
  rw [String.utf8EncodeChar] at h
  split at h
  next hsmall =>
    have hvalue := hall ⟨c.val.toNat, by omega⟩ (h _ (by simp))
    rw [show Char.ofNat c.val.toNat = c from Char.ofNat_toNat c] at hvalue
    obtain ⟨n, hn⟩ := Option.isSome_iff_exists.1 hvalue
    exact ⟨n, isDigit_of_value? hn⟩
  next =>
    refine absurd (h (UInt8.ofNat (c.val.toNat % 64 + 128)) ?_) (not_isDigitByte_of_later _)
    split
    · simp
    · split <;> simp

theorem forall_isDigitByte_iff (s : String) :
    (∀ b ∈ Bytes.ofText s, IsDigitByte b) ↔ ∀ c ∈ s.toList, ∃ n, IsDigit n c := by
  rw [Bytes.ofText_eq_flatMap]
  constructor
  · intro h c hc
    exact exists_isDigit_of_bytes fun b hb => h b (List.mem_flatMap.2 ⟨c, hc, hb⟩)
  · intro h b hb
    obtain ⟨c, hc, hb⟩ := List.mem_flatMap.1 hb
    obtain ⟨n, hn⟩ := h c hc
    obtain ⟨hbytes, hdigit⟩ := hn.utf8EncodeChar
    rw [hbytes, List.mem_singleton] at hb
    exact hb ▸ hdigit

theorem length_ofText_of_digits {s : String} (h : ∀ c ∈ s.toList, ∃ n, IsDigit n c) :
    (Bytes.ofText s).length = s.toList.length := by
  have hone : ∀ c ∈ s.toList, (String.utf8EncodeChar c).length = 1 := by
    intro c hc
    obtain ⟨n, hn⟩ := h c hc
    rw [hn.utf8EncodeChar.1, List.length_singleton]
  rw [Bytes.ofText_eq_flatMap, List.length_flatMap, List.map_congr_left hone]
  simp

/-! ## Texts that spell bytes -/

theorem exists_spells_iff {cs : List Char} {n : Nat} :
    (∃ b, Spells cs b ∧ b.length = n) ↔ cs.length = 2 * n ∧ ∀ c ∈ cs, ∃ v, IsDigit v c := by
  constructor
  · rintro ⟨b, hspells, rfl⟩
    induction hspells with
    | nil => simp
    | cons hhigh hlow _ ih =>
      refine ⟨?_, List.forall_mem_cons.2 ⟨⟨_, hhigh⟩, List.forall_mem_cons.2 ⟨⟨_, hlow⟩, ih.2⟩⟩⟩
      rw [List.length_cons, List.length_cons, List.length_cons, ih.1]
      omega
  · rintro ⟨hlength, hdigits⟩
    induction n generalizing cs with
    | zero => exact ⟨[], List.eq_nil_of_length_eq_zero hlength ▸ .nil, rfl⟩
    | succ n ih =>
      obtain ⟨high, rest, rfl⟩ := List.exists_cons_of_length_pos (by omega : 0 < cs.length)
      obtain ⟨low, cs, rfl⟩ := List.exists_cons_of_length_pos
        (show 0 < rest.length by rw [List.length_cons] at hlength; omega)
      rw [List.length_cons, List.length_cons] at hlength
      rw [List.forall_mem_cons, List.forall_mem_cons] at hdigits
      obtain ⟨⟨x, hx⟩, ⟨y, hy⟩, hrest⟩ := hdigits
      obtain ⟨b, hspells, rfl⟩ := ih (by omega) hrest
      exact ⟨_, .cons_digits hx hy hspells, rfl⟩

theorem IsDigit.toLower {n : Nat} {c : Char} (h : IsDigit n c) : c.toLower = digit n :=
  h.elim (by decide) (by decide)

theorem Spells.encode_eq {cs : List Char} {b : Bytes} (h : Spells cs b) :
    encode b = cs.map Char.toLower := by
  induction h with
  | nil => rfl
  | cons hhigh hlow _ ih =>
    rw [encode, ih, List.map_cons, List.map_cons, hhigh.toLower, hlow.toLower]

end Text.Hex

namespace Digest

open Text.Hex (IsDigitByte)

/-- A digest is read from 32 bytes that are digits. -/
theorem exists_ofHex_iff (text : String) : (∃ d, ofHex text = .ok d) ↔
    (Bytes.ofText text).length = 32 ∧ ∀ b ∈ Bytes.ofText text, IsDigitByte b := by
  have hread : (∃ d, ofHex text = .ok d) ↔
      ∃ b : Bytes, Text.Hex.Spells text.toList b ∧ b.length = 16 := by
    constructor
    · rintro ⟨d, hd⟩
      exact ⟨d.bytes, ofHex_eq_ok_iff.1 hd, d.size⟩
    · rintro ⟨b, hspells, hsize⟩
      exact ⟨⟨b, hsize⟩, ofHex_eq_ok_iff.2 hspells⟩
  rw [hread, Text.Hex.exists_spells_iff, Text.Hex.forall_isDigitByte_iff]
  constructor
  · rintro ⟨hlength, hdigits⟩
    exact ⟨(Text.Hex.length_ofText_of_digits hdigits).trans hlength, hdigits⟩
  · rintro ⟨hlength, hdigits⟩
    exact ⟨(Text.Hex.length_ofText_of_digits hdigits).symm.trans hlength, hdigits⟩

theorem toHex_of_ofHex {text : String} {d : Digest} (h : ofHex text = .ok d) :
    d.toHex = text.toLower := by
  have hdigits := (ofHex_eq_ok_iff.1 h).encode_eq
  have hlower : text.toLower.toList = text.toList.map Char.toLower := String.toList_map
  rw [toHex, hdigits, ← hlower, String.ofList_toList]

/-! ## Directories named after digests -/

section Directories

variable {cache : Path} {d e : Digest}

theorem eq_of_sameSteps_child (h : (cache.child d.toHex).SameSteps (cache.child e.toHex)) :
    d = e := by
  have hnames := h.names
  rw [Path.names_child d.stem_toHex.plain, Path.names_child e.stem_toHex.plain] at hnames
  exact toHex_injective (List.cons.inj hnames).1

theorem eq_of_beneath_child {working k : Key} (h : (cache.child d.toHex).Beneath working k)
    (h' : (cache.child e.toHex).Beneath working k) : d = e := by
  obtain ⟨names, -, -, hk⟩ := h
  obtain ⟨names', -, -, hk'⟩ := h'
  rw [Path.key_child d.stem_toHex.plain, List.append_assoc] at hk
  rw [hk, Path.key_child e.stem_toHex.plain, List.append_assoc, List.append_cancel_left_eq] at hk'
  exact toHex_injective (List.cons.inj hk').1

theorem beneath_child_of_entryPath {o : Optimization} {p : Program} {t : Tree} {entry : Path}
    (h : Stage.entryPath o cache p t = some entry) (hd : p.digest = some d) (working : Key) :
    (cache.child d.toHex).Beneath working (entry.key working) := by
  obtain ⟨found, place, hfound, -, hp, hentry⟩ := Stage.entryPath_eq_some h
  have hsame : found = d := Option.some.inj (hfound.symm.trans hd)
  rw [hentry, hsame]
  exact Place.beneath_within working _ hp (by decide)

end Directories

/-- Which texts are read as digests, that a digest is shown as the text it was read from in small
letters and is read back from what is shown, and that no two digests are shown alike. What is kept
for a program in a cache lies beneath the directory with the name of its digest, and the directories
of two digests are not the same, nor does anything lie beneath both. -/
theorem hex_names_digests :
    (∀ text, (∃ d, ofHex text = .ok d) ↔
      (Bytes.ofText text).length = 32 ∧ ∀ b ∈ Bytes.ofText text, IsDigitByte b) ∧
    (∀ text d, ofHex text = .ok d → d.toHex = text.toLower) ∧
    (∀ d, ofHex d.toHex = .ok d) ∧
    (∀ d e : Digest, d.toHex = e.toHex → d = e) ∧
    (∀ (o : Optimization) (cache entry : Path) (p : Program) (t : Tree) (d : Digest)
      (working : Key), p.digest = some d → Stage.entryPath o cache p t = some entry →
        (cache.child d.toHex).Beneath working (entry.key working)) ∧
    ∀ (cache : Path) (d e : Digest), d ≠ e →
      ¬ (cache.child d.toHex).SameSteps (cache.child e.toHex) ∧
      ∀ working k, (cache.child d.toHex).Beneath working k →
        ¬ (cache.child e.toHex).Beneath working k := by
  refine ⟨exists_ofHex_iff, fun _ _ => toHex_of_ofHex, ofHex_toHex, fun _ _ => toHex_injective,
    fun _ _ _ _ _ _ working hd hentry => beneath_child_of_entryPath hentry hd working, ?_⟩
  intro cache d e hne
  exact ⟨fun hsame => hne (eq_of_sameSteps_child hsame),
    fun _ _ hd he => hne (eq_of_beneath_child hd he)⟩

/-- Capitals are read and shown as small letters; sixteen letters of two bytes are 32 bytes and no
digest. A program whose digest is all zeros has its entries beneath 32 zeros. -/
theorem hex_names_digests_mixed :
    let d : Digest :=
      ⟨[0, 17, 34, 51, 68, 85, 102, 119, 136, 153, 170, 187, 204, 221, 238, 255], rfl⟩
    let e : Digest := ⟨List.replicate 16 0, List.length_replicate⟩
    let accented := "éééééééééééééééé"
    let program : Program :=
      { name := "x", source := ⟨"x.eo"⟩, intermediate := ⟨"x.json"⟩, digest := some e }
    let entry : Path := ⟨"c/00000000000000000000000000000000/a.tree"⟩
    (ofHex "00112233445566778899AAbbCcDdEEfF" = .ok d ∧
      d.toHex = "00112233445566778899AAbbCcDdEEfF".toLower) ∧
    ((Bytes.ofText accented).length = 32 ∧ ¬ ∃ d, ofHex accented = .ok d) ∧
    (Stage.entryPath (Train.optimization {}) ⟨"c"⟩ program (.ofName "a") = some entry ∧
      Path.Beneath [] (Path.child ⟨"c"⟩ e.toHex) (entry.key [])) ∧
    d ≠ e ∧ ¬ Path.SameSteps (Path.child ⟨"c"⟩ d.toHex) (Path.child ⟨"c"⟩ e.toHex) := by
  intro d e accented program entry
  obtain ⟨hread, hshown, -, -, hkept, hapart⟩ := hex_names_digests
  have hd : ofHex "00112233445566778899AAbbCcDdEEfF" = .ok d := by decide +kernel
  have hbytes : ¬ ∀ b ∈ Bytes.ofText accented, IsDigitByte b := by decide +kernel
  have hentry : Stage.entryPath (Train.optimization {}) ⟨"c"⟩ program (.ofName "a") = some entry := by
    decide
  have hne : d ≠ e := by decide
  exact ⟨⟨hd, hshown _ d hd⟩, ⟨by decide +kernel, fun h => hbytes ((hread _).1 h).2⟩,
    ⟨hentry, hkept _ _ _ program _ e [] rfl hentry⟩, hne, (hapart ⟨"c"⟩ d e hne).1⟩

end Digest

end Trainyard
