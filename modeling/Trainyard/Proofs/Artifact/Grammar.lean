import Trainyard.Proofs.Artifact
import Trainyard.Proofs.Binary.Forms
import Trainyard.Proofs.Text.Hex

/-!
# What counts as an artifact

The content of a good artifact file is the length of a header in four bytes, so many bytes that
start with a form of a header, and the payload whose digest the header holds. The inspection of a
file accepts these contents and gives back the payload, whatever else stands behind the header's
form or in which of its forms the header is written.

So a file that was cut off is found out: in the four bytes, in the header, or in the payload by its
digest, unless the rest of the payload happens to have the digest of the whole.
-/

set_option autoImplicit false

namespace Trainyard.Artifact

theorem exists_of_prefix_append {α : Type} {q xs ys : List α} (h : q <+: xs ++ ys)
    (hlength : xs.length ≤ q.length) : ∃ zs, q = xs ++ zs ∧ zs <+: ys := by
  obtain ⟨zs, rfl⟩ := List.prefix_of_prefix_length_le (List.prefix_append xs ys) h hlength
  exact ⟨zs, rfl, (List.prefix_append_right_inj xs).1 h⟩

theorem toNat_size {n : Nat} (h : n < UInt32.size) : Bytes.toNat (Bytes.littleEndian 4 n) = n := by
  rw [Bytes.toNat_littleEndian]
  exact Nat.mod_eq_of_lt h

/-! ## Headers -/

/-- The forms of a header: four bytes, then any forms of the version, of the producer and of a text
that spells the checksum. -/
inductive HeaderForm (h : Header) : Bytes → Prop
  | mk {version producer digits : Bytes} {hex : String} (hmagic : h.magic.length = 4)
      (hversion : Binary.NumberForm false h.version version)
      (hproducer : Binary.TextForm h.producer producer)
      (hspells : Text.Hex.Spells hex.toList h.checksum.bytes) (hdigits : Binary.TextForm hex digits) :
      HeaderForm h (h.magic ++ (version ++ (producer ++ digits)))

theorem reads_header : Binary.Reads Header.read HeaderForm := by
  intro b h rest
  constructor
  · intro hread
    obtain ⟨⟨magic, b₁⟩, hmagic, hread⟩ := Option.bind_eq_some_iff.1 hread
    obtain ⟨⟨version, b₂⟩, hversion, hread⟩ := Option.bind_eq_some_iff.1 hread
    obtain ⟨⟨producer, b₃⟩, hproducer, hread⟩ := Option.bind_eq_some_iff.1 hread
    obtain ⟨⟨hex, b₄⟩, hhex, hlast⟩ := Option.bind_eq_some_iff.1 hread
    obtain ⟨hlength, rfl⟩ := Binary.bytes_eq_some_iff.1 hmagic
    obtain ⟨first, hfirst, rfl⟩ := (Binary.reads_readNat false _ _ _).1 hversion
    obtain ⟨second, hsecond, rfl⟩ := (Binary.reads_readText _ _ _).1 hproducer
    obtain ⟨third, hthird, rfl⟩ := (Binary.reads_readText _ _ _).1 hhex
    dsimp only at hlast
    split at hlast
    next checksum hchecksum =>
      cases hlast
      exact ⟨_, .mk hlength hfirst hsecond (Digest.ofHex_eq_ok_iff.1 hchecksum) hthird,
        by simp only [List.append_assoc]⟩
    next => cases hlast
  · rintro ⟨front, ⟨hmagic, hversion, hproducer, hspells, hdigits⟩, rfl⟩
    simp only [List.append_assoc]
    simp [Header.read, Binary.bytes_eq_some_iff.2 ⟨hmagic, rfl⟩, Binary.readWord,
      Binary.readNat_of_numberForm hversion, (Binary.reads_readText _ _ _).2 ⟨_, hproducer, rfl⟩,
      (Binary.reads_readText _ _ _).2 ⟨_, hdigits, rfl⟩, Digest.ofHex_eq_ok_iff.2 hspells]

/-! ## Frames -/

section Frames

variable {head payload rest : Bytes} {producer : String} {checksum : Digest}

/-- In front of a payload stands a header that can be measured; the checks are then about what the
header says. -/
theorem decode_frame (hsize : head.length < UInt32.size)
    (hread : Header.read head = some (⟨magic, version, producer, checksum⟩, rest))
    (payload : Bytes) :
    decode (Bytes.littleEndian 4 head.length ++ head ++ payload) =
      if checksum = Digest.ofBytes payload then .ok payload
      else .error (.checksum checksum (Digest.ofBytes payload)) := by
  have hfour : Binary.bytes 4 (Bytes.littleEndian 4 head.length ++ head ++ payload) =
      some (Bytes.littleEndian 4 head.length, head ++ payload) :=
    Binary.bytes_eq_some_iff.2 ⟨Bytes.length_littleEndian 4 _, List.append_assoc _ _ _⟩
  rw [decode, hfour]
  dsimp only
  rw [toNat_size hsize, Binary.bytes_append]
  simp only [hread]
  by_cases h : checksum = Digest.ofBytes payload <;> simp [h]

def Frames (raw payload : Bytes) : Prop :=
  ∃ head form producer checksum, head.length < UInt32.size ∧
    raw = Bytes.littleEndian 4 head.length ++ head ++ payload ∧ form <+: head ∧
    HeaderForm ⟨magic, version, producer, checksum⟩ form ∧ checksum = Digest.ofBytes payload

theorem frames_of_decode {raw payload : Bytes} (h : decode raw = .ok payload) :
    Frames raw payload := by
  rw [decode] at h
  split at h
  next => cases h
  next size rest hfour =>
    obtain ⟨hsize, rfl⟩ := Binary.bytes_eq_some_iff.1 hfour
    split at h
    next => cases h
    next head payload' hhead =>
      obtain ⟨hlength, rfl⟩ := Binary.bytes_eq_some_iff.1 hhead
      have hle : size = Bytes.littleEndian 4 head.length := by
        rw [hlength, ← hsize, Bytes.littleEndian_toNat]
      have hlt : head.length < UInt32.size := by
        rw [hlength]
        exact Nat.lt_of_lt_of_eq (Bytes.toNat_lt size) (by rw [hsize])
      split at h
      next => cases h
      next header after hread =>
        obtain ⟨form, hform, hprefix⟩ := (reads_header _ _ _).1 hread
        obtain ⟨found, version', producer, checksum⟩ := header
        by_cases hmagic : found = magic
        · by_cases hversion : version' = version
          · by_cases hsum : checksum = Digest.ofBytes payload'
            · simp only [hmagic, hversion, hsum, ne_eq, not_true_eq_false, if_false] at h
              cases h
              subst hmagic hversion
              exact ⟨head, form, producer, checksum, hlt, by rw [hle, List.append_assoc],
                ⟨after, hprefix.symm⟩, hform, hsum⟩
            · simp [hmagic, hversion, hsum] at h
          · simp [hmagic, hversion] at h
        · simp [hmagic] at h

theorem decode_eq_ok_iff {raw payload : Bytes} : decode raw = .ok payload ↔ Frames raw payload := by
  refine ⟨frames_of_decode, ?_⟩
  rintro ⟨head, form, producer, checksum, hlt, rfl, ⟨after, rfl⟩, hform, hsum⟩
  rw [decode_frame hlt ((reads_header _ _ _).2 ⟨form, hform, rfl⟩), if_pos hsum]

end Frames

/-! ## Files that were cut off -/

section Cut

variable {producer : String} {d q : Bytes} (hsize : (header producer d).length < UInt32.size)

include hsize

theorem read_header : Header.read (header producer d) =
    some (⟨magic, version, producer, Digest.ofBytes d⟩, []) := by
  refine Header.read_encode rfl (show version < UInt32.size by decide) ?_
  exact Nat.lt_trans (Nat.lt_of_le_of_lt (length_producer_le producer d) hsize) (by decide)

/-- Behind a written header any payload is measured against the digest of the one it was written
for. -/
theorem decode_payload (p : Bytes) :
    decode (Bytes.littleEndian 4 (header producer d).length ++ header producer d ++ p) =
      if Digest.ofBytes d = Digest.ofBytes p then .ok p
      else .error (.checksum (Digest.ofBytes d) (Digest.ofBytes p)) :=
  decode_frame hsize (read_header hsize) p

omit hsize in
theorem decode_of_short (h : q.length < 4) : decode q = .error .tooShort := by
  rw [decode, Binary.bytes_eq_none_iff.2 h]

theorem decode_of_cut_header (hq : q <+: encode producer d) (hfour : 4 ≤ q.length)
    (hshort : q.length < 4 + (header producer d).length) : decode q = .error .truncated := by
  have hlength := Bytes.length_littleEndian 4 (header producer d).length
  rw [encode, List.append_assoc] at hq
  obtain ⟨part, rfl, -⟩ := exists_of_prefix_append hq (by rw [hlength]; exact hfour)
  have hpart : part.length < (header producer d).length := by
    rw [List.length_append, hlength] at hshort
    omega
  rw [decode, Binary.bytes_eq_some_iff.2 ⟨hlength, rfl⟩]
  dsimp only
  rw [toNat_size hsize, Binary.bytes_eq_none_iff.2 hpart]

omit hsize in
theorem exists_of_cut_payload (hq : q <+: encode producer d)
    (hlong : 4 + (header producer d).length ≤ q.length) : ∃ cut, cut <+: d ∧
      q = Bytes.littleEndian 4 (header producer d).length ++ header producer d ++ cut := by
  have hlength := Bytes.length_littleEndian 4 (header producer d).length
  obtain ⟨cut, rfl, hcut⟩ := exists_of_prefix_append hq
    (by rw [List.length_append, hlength]; exact hlong)
  exact ⟨cut, hcut, rfl⟩

end Cut

namespace Store

variable {store : Store} {fs : FileSystem} {relative : Path} {raw : Bytes}

theorem inspect_of_content (hfile : fs.read (store.pathOf relative) = .ok raw.pack) :
    store.inspect fs relative = (decode raw).mapError (.fault (store.pathOf relative)) := by
  dsimp only [inspect]
  rw [hfile]
  dsimp only
  rw [Bytes.unpack_pack]
  cases decode raw <;> rfl

theorem inspect_eq_ok_iff (hfile : fs.read (store.pathOf relative) = .ok raw.pack)
    {payload : Bytes} : store.inspect fs relative = .ok payload ↔ Frames raw payload := by
  rw [inspect_of_content hfile, ← decode_eq_ok_iff]
  cases decode raw <;> simp

/-- A file is accepted exactly if it is a frame, and then for its payload. A file that was written
and cut off is refused for what is missing: the length, the header or, by its digest, the payload.
Another payload behind a written header is accepted exactly if it has the digest of the first. -/
theorem inspect_accepts_frames (hfile : fs.read (store.pathOf relative) = .ok raw.pack) :
    let path := store.pathOf relative
    (∀ p, store.inspect fs relative = .ok p ↔
      ∃ head form producer checksum, head.length < UInt32.size ∧
        raw = Bytes.littleEndian 4 head.length ++ head ++ p ∧ form <+: head ∧
        HeaderForm ⟨magic, version, producer, checksum⟩ form ∧ checksum = Digest.ofBytes p) ∧
    (∀ producer d, (header producer d).length < UInt32.size → raw <+: encode producer d →
      raw ≠ encode producer d →
      (raw.length < 4 → ∃ e, store.inspect fs relative = .error e ∧ e = .fault path .tooShort ∧
        e.message = "invalid artifact header in " ++ path.text ++
          ": file too short for header length") ∧
      (4 ≤ raw.length → raw.length < 4 + (header producer d).length →
        ∃ e, store.inspect fs relative = .error e ∧ e = .fault path .truncated ∧
          e.message = "invalid artifact header in " ++ path.text ++ ": truncated header") ∧
      (4 + (header producer d).length ≤ raw.length → ∃ cut, cut <+: d ∧ cut ≠ d ∧
        raw = Bytes.littleEndian 4 (header producer d).length ++ header producer d ++ cut ∧
        store.inspect fs relative = if Digest.ofBytes d = Digest.ofBytes cut then .ok cut
          else .error (.fault path (.checksum (Digest.ofBytes d) (Digest.ofBytes cut))))) ∧
    (∀ producer d p, (header producer d).length < UInt32.size →
      raw = Bytes.littleEndian 4 (header producer d).length ++ header producer d ++ p →
      (store.inspect fs relative = .ok p ↔ Digest.ofBytes p = Digest.ofBytes d) ∧
        ((∃ found, store.inspect fs relative = .ok found) ↔
          Digest.ofBytes p = Digest.ofBytes d)) ∧
    ∀ d (s s' : Site) written, (store.write relative d).on s = (.ok written, s') →
      written = path ∧ s'.files.read path = .ok (encode store.producer d).pack := by
  have hinspect := inspect_of_content hfile
  refine ⟨fun p => inspect_eq_ok_iff hfile, ?_, ?_, ?_⟩
  · intro producer d hsize hcut hstrict
    refine ⟨fun hshort => ?_, fun hfour hshort => ?_, fun hlong => ?_⟩
    · rw [hinspect, decode_of_short hshort]
      exact ⟨_, rfl, rfl, rfl⟩
    · rw [hinspect, decode_of_cut_header hsize hcut hfour hshort]
      exact ⟨_, rfl, rfl, rfl⟩
    · obtain ⟨cut, hprefix, hraw⟩ := exists_of_cut_payload hcut hlong
      refine ⟨cut, hprefix, ?_, hraw, ?_⟩
      · rintro rfl
        exact hstrict hraw
      · rw [hinspect, hraw, decode_payload hsize]
        split <;> rfl
  · intro producer d p hsize hraw
    rw [hinspect, hraw, decode_payload hsize]
    by_cases h : Digest.ofBytes d = Digest.ofBytes p
    · simp [h]
    · simp [h, Ne.symm h]
  · intro d s s' written hwrite
    obtain ⟨rfl, hread⟩ := read_of_on_write hwrite
    exact ⟨rfl, hread⟩

/-- A header with numbers in longer forms than needed, its digest in capitals and a byte left over is
accepted. A file that has lost its last byte is not. -/
theorem inspect_accepts_frames_loose :
    let store : Store := ⟨⟨"c"⟩, "p"⟩
    let holding (raw : Bytes) : FileSystem :=
      ⟨.directory [("c", .directory [("a.tree", .file raw.pack 0)] 0)] 0, [], 0⟩
    let loose : Bytes := magic ++ ([252, 1, 0, 0, 0] ++ ([253, 1, 0, 0, 0, 0, 0, 0, 0] ++
      Bytes.ofText "p" ++ ([251, 32, 0] ++ Bytes.ofText "1F81F4D045CA5C4CA40CF73E07625B49"))) ++ [9]
    let cut : Bytes := Bytes.littleEndian 4 (header "p" [7, 8]).length ++ header "p" [7, 8] ++ [7]
    store.inspect (holding (Bytes.littleEndian 4 loose.length ++ loose ++ [7])) ⟨"a.tree"⟩ =
        .ok [7] ∧
      cut <+: encode "p" [7, 8] ∧ store.inspect (holding cut) ⟨"a.tree"⟩ =
        .error (.fault ⟨"c/a.tree"⟩ (.checksum (Digest.ofBytes [7, 8]) (Digest.ofBytes [7]))) := by
  intro store holding loose cut
  have hpath : store.pathOf ⟨"a.tree"⟩ = ⟨"c/a.tree"⟩ := by decide
  have hfile (raw : Bytes) : (holding raw).read (store.pathOf ⟨"a.tree"⟩) = .ok raw.pack := by
    rw [hpath]
    with_unfolding_all rfl
  have hdigits : Text.Hex.Spells "1F81F4D045CA5C4CA40CF73E07625B49".toList
      (Digest.ofBytes [7]).bytes := Text.Hex.spells_of_decode (by decide +kernel)
  have hform : HeaderForm ⟨magic, version, "p", Digest.ofBytes [7]⟩ _ :=
    .mk rfl (.four (b := [1, 0, 0, 0]) rfl) (.mk (.eight (b := [1, 0, 0, 0, 0, 0, 0, 0]) rfl rfl))
      hdigits (.mk (.two (b := [32, 0]) rfl))
  have hprefix : cut <+: encode "p" [7, 8] := by
    rw [encode, List.prefix_append_right_inj]
    exact List.prefix_append [7] [8]
  obtain ⟨hframes, -⟩ :=
    inspect_accepts_frames (hfile (Bytes.littleEndian 4 loose.length ++ loose ++ [7]))
  obtain ⟨-, hcut, -⟩ := inspect_accepts_frames (hfile cut)
  refine ⟨(hframes [7]).2 ⟨loose, _, "p", _, by decide, rfl, List.prefix_append _ _, hform, rfl⟩,
    hprefix, ?_⟩
  have hlength : cut.length = 4 + (header "p" [7, 8]).length + 1 := by
    simp only [cut, List.length_append, Bytes.length_littleEndian, List.length_singleton]
  have hstrict : cut ≠ encode "p" [7, 8] := by
    rw [encode, Ne, List.append_cancel_left_eq]
    decide
  obtain ⟨rest, -, -, hrest, hinspect⟩ :=
    (hcut "p" [7, 8] (length_header_lt (by decide) _) hprefix hstrict).2.2 (by omega)
  obtain rfl : rest = [7] := (List.append_cancel_left hrest).symm
  rw [hinspect, if_neg (by decide +kernel), hpath]

end Store

end Trainyard.Artifact
