import Trainyard.Artifact.Store
import Trainyard.Proofs.Binary
import Trainyard.Proofs.Job

/-!
# Artifacts are read back

An artifact that was encoded passes every check of the decoder and gives its
payload back, as long as the length of the header fits into its four bytes. A store
writes nothing but such artifacts, each at its own path.
-/

set_option autoImplicit false

namespace Trainyard

theorem Digest.ofHex_toHex (d : Digest) : Digest.ofHex d.toHex = .ok d := by
  rw [ofHex, toHex, String.toList_ofList, Text.Hex.decode_encode]
  simp only [dif_pos d.size]

theorem Bytes.length_ofText_ofList_le (cs : List Char) :
    (Bytes.ofText (String.ofList cs)).length ≤ 4 * cs.length := by
  have hsize : cs.utf8Encode.size ≤ 4 * cs.length := by
    induction cs with
    | nil => simp
    | cons c cs ih =>
      have hc : (String.utf8EncodeChar c).toByteArray.size ≤ 4 := by
        simpa using c.utf8Size_le_four
      rw [List.utf8Encode_cons, ByteArray.size_append, List.utf8Encode_singleton, List.length_cons]
      omega
  simpa [Bytes.ofText, Bytes.unpack] using hsize

theorem Digest.length_toHex_le (d : Digest) : (Bytes.ofText d.toHex).length ≤ 128 := by
  have hlength := Bytes.length_ofText_ofList_le (Text.Hex.encode d.bytes)
  rw [Text.Hex.length_encode, d.size] at hlength
  exact hlength

theorem Binary.length_nat_le (n : Nat) (rest : Bytes) :
    (Binary.nat n rest).length ≤ rest.length + 9 := by
  rw [Binary.nat]
  repeat' split
  all_goals simp [Bytes.length_littleEndian]; try omega

theorem Binary.length_text_le (s : String) (rest : Bytes) :
    (Binary.text s rest).length ≤ (Bytes.ofText s).length + rest.length + 9 := by
  have hlength := Binary.length_nat_le (Bytes.ofText s).length (Bytes.ofText s ++ rest)
  rw [List.length_append] at hlength
  exact hlength

namespace Artifact

theorem Header.read_encode {h : Header} (hmagic : h.magic.length = 4) (hversion : h.version < UInt32.size)
    (hproducer : Binary.Fits h.producer) : Header.read h.encode = some (h, []) := by
  have hfront := Binary.bytes_append h.magic
    (Binary.nat h.version (Binary.text h.producer (Binary.text h.checksum.toHex [])))
  rw [hmagic] at hfront
  have hword := Binary.readNat_nat false h.version
    (Binary.text h.producer (Binary.text h.checksum.toHex [])) hversion
  have hhex : Binary.Fits h.checksum.toHex :=
    Nat.lt_of_le_of_lt h.checksum.length_toHex_le (by decide)
  simp [Header.read, Header.encode, hfront, Binary.readWord, hword,
    Binary.readText_text _ _ hproducer, Binary.readText_text _ _ hhex, Digest.ofHex_toHex]

def Brief (producer : String) : Prop := (Bytes.ofText producer).length < UInt32.size / 2

instance (producer : String) : Decidable (Brief producer) := inferInstanceAs (Decidable (_ < _))

theorem length_header_lt {producer : String} (hp : Brief producer) (payload : Bytes) :
    (header producer payload).length < Nat.pow 256 4 := by
  have hhex := (Digest.ofBytes payload).length_toHex_le
  have hlast := Binary.length_text_le (Digest.ofBytes payload).toHex []
  have htexts := Binary.length_text_le producer (Binary.text (Digest.ofBytes payload).toHex [])
  have hnat := Binary.length_nat_le version
    (Binary.text producer (Binary.text (Digest.ofBytes payload).toHex []))
  have hmagic : magic.length = 4 := rfl
  rw [header, Header.encode, List.length_append, Nat.pow_eq]
  rw [Brief, UInt32.size] at hp
  simp only [List.length_nil] at hlast ⊢
  omega

theorem length_producer_le (producer : String) (payload : Bytes) :
    (Bytes.ofText producer).length ≤ (header producer payload).length := by
  have hrest := Binary.lt_length_nat (Bytes.ofText producer).length
    (Bytes.ofText producer ++ Binary.text (Digest.ofBytes payload).toHex [])
  have htexts := Binary.lt_length_nat version
    (Binary.text producer (Binary.text (Digest.ofBytes payload).toHex []))
  rw [List.length_append] at hrest
  calc (Bytes.ofText producer).length
    _ ≤ (Binary.text producer (Binary.text (Digest.ofBytes payload).toHex [])).length :=
        Nat.le_of_lt (Nat.lt_of_le_of_lt (Nat.le_add_right _ _) hrest)
    _ ≤ (Binary.nat version
          (Binary.text producer (Binary.text (Digest.ofBytes payload).toHex []))).length :=
        Nat.le_of_lt htexts
    _ ≤ (header producer payload).length := by
        rw [header, Header.encode, List.length_append]
        exact Nat.le_add_left _ _

/-- What was encoded is decoded, whatever the payload, if the length of the header can be
written. -/
theorem decode_encode_of_length {producer : String} {payload : Bytes}
    (h : (header producer payload).length < Nat.pow 256 4) :
    decode (encode producer payload) = .ok payload := by
  have hfits : Binary.Fits producer :=
    Nat.lt_trans (Nat.lt_of_le_of_lt (length_producer_le producer payload) h) (by decide)
  have hsize := Binary.bytes_append (Bytes.littleEndian 4 (header producer payload).length)
    (header producer payload ++ payload)
  simp only [Bytes.length_littleEndian] at hsize
  have hcount := Bytes.toNat_littleEndian 4 (header producer payload).length
  rw [Nat.mod_eq_of_lt h] at hcount
  have hhead := Binary.bytes_append (header producer payload) payload
  have hread : Header.read (header producer payload) =
      some (⟨magic, version, producer, Digest.ofBytes payload⟩, []) :=
    Header.read_encode rfl (show version < UInt32.size by decide) hfits
  simp only [decode, encode, List.append_assoc, hsize, hcount, hhead, hread, ne_eq,
    not_true_eq_false, if_false]

theorem decode_encode {producer : String} (hp : Brief producer) (payload : Bytes) :
    decode (encode producer payload) = .ok payload :=
  decode_encode_of_length (length_header_lt hp payload)

/-! ## Stores -/

namespace Store

theorem inspect_ok {store : Store} {fs : FileSystem} {relative : Path} {payload : Bytes}
    (h : store.inspect fs relative = .ok payload) :
    ∃ raw, fs.read (store.pathOf relative) = .ok raw ∧ decode (Bytes.unpack raw) = .ok payload := by
  dsimp only [inspect] at h
  cases hread : fs.read (store.pathOf relative) with
  | error e => simp [hread] at h
  | ok raw =>
    cases hdecode : decode (Bytes.unpack raw) with
    | error e => simp [hread, hdecode] at h
    | ok found => exact ⟨raw, rfl, by simpa [hread, hdecode] using h⟩

theorem inspect_of_read {store : Store} {fs : FileSystem} {relative : Path} {raw : ByteArray}
    {payload : Bytes} (hread : fs.read (store.pathOf relative) = .ok raw)
    (hdecode : decode (Bytes.unpack raw) = .ok payload) :
    store.inspect fs relative = .ok payload := by
  dsimp only [inspect]
  rw [hread]
  dsimp only
  rw [hdecode]

theorem inspect_of_read_error {store : Store} {fs : FileSystem} {relative : Path} {e : OsError}
    (hread : fs.read (store.pathOf relative) = .error e) :
    store.inspect fs relative = .error (.io (store.pathOf relative) e) := by
  dsimp only [inspect]
  rw [hread]

theorem inspect_congr {store : Store} {fs fs' : FileSystem} {relative : Path}
    (h : fs'.read (store.pathOf relative) = fs.read (store.pathOf relative)) :
    store.inspect fs' relative = store.inspect fs relative := by
  dsimp only [inspect]
  rw [h]

theorem toOption_inspect (store : Store) (fs : FileSystem) (relative : Path) :
    (store.inspect fs relative).toOption = (fs.read (store.pathOf relative)).toOption.bind fun raw =>
      (decode (Bytes.unpack raw)).toOption := by
  dsimp only [inspect]
  cases fs.read (store.pathOf relative) with
  | error e => rfl
  | ok raw =>
    simp only [Except.toOption, Option.bind_some]
    cases decode (Bytes.unpack raw) <;> rfl

theorem on_read {ε : Type} (store : Store) (relative : Path) (s : Site) :
    ∃ s₁, s₁.files = s.files ∧ (store.read relative : Job ε (Option Bytes)).on s =
      (.ok (store.inspect s.files relative).toOption, s₁) := by
  simp only [read, Job.on_bind, Job.on_files]
  cases store.inspect s.files relative with
  | ok payload => exact ⟨s, rfl, rfl⟩
  | error e =>
    by_cases hfound : e.isNotFound = true
    · simp only [if_pos hfound]
      exact ⟨s, rfl, rfl⟩
    · simp only [if_neg hfound]
      exact ⟨{ s with journal := s.journal.push _ }, rfl, rfl⟩

/-- How writing goes: the directory is made, a passing file disturbs it, the artifact is moved
into place. -/
theorem on_write (store : Store) (relative : Path) (payload : Bytes) (s : Site) :
    let path := store.pathOf relative
    let dir := path.parent?.getD store.root
    (store.write relative payload).on s =
      match s.files.makeDirectories dir with
      | (.error e, fs) => (.error (.io dir e), { s with files := fs })
      | (.ok _, fs) =>
        match fs.disturb dir with
        | .error e => (.error (.io dir e), { s with files := fs })
        | .ok fs =>
          match fs.replace path (encode store.producer payload).pack with
          | .error e => (.error (.io path e), { s with files := fs })
          | .ok fs => (.ok path, { s with files := fs }) := by
  intro path dir
  simp only [write, Job.on_bind, Job.on_makeDirectories]
  rcases s.files.makeDirectories dir with ⟨made, fs⟩
  cases made with
  | error e => rfl
  | ok u =>
    simp only [mapError_ok, Job.on_change]
    cases fs.disturb dir with
    | error e => rfl
    | ok fs₁ =>
      dsimp only
      cases fs₁.replace path (encode store.producer payload).pack <;> rfl

theorem fst_on_write_congr {s s' : Site} (h : s'.files = s.files) (store : Store)
    (relative : Path) (payload : Bytes) :
    ((store.write relative payload).on s').1 = ((store.write relative payload).on s).1 := by
  rw [on_write, on_write, h]
  split
  · rfl
  · split
    · rfl
    · split <;> rfl

theorem on_writeOnce_of_inspect {store : Store} {relative : Path} {s : Site} {e : CacheError}
    (h : store.inspect s.files relative = .error e) (payload : Bytes) :
    (store.writeOnce relative payload).on s = (do
      let _ ← store.write relative payload
      pure true).on s := by
  simp only [writeOnce, Job.on_bind, Job.on_files, h]

theorem on_writeOnce_of_good {store : Store} {relative : Path} {s : Site} {found : Bytes}
    (h : store.inspect s.files relative = .ok found) (payload : Bytes) :
    (store.writeOnce relative payload).on s = (.ok false, s) := by
  simp only [writeOnce, Job.on_bind, Job.on_files, h, Job.on_pure]

theorem read_of_on_write {store : Store} {relative path : Path} {payload : Bytes} {s s' : Site}
    (h : (store.write relative payload).on s = (.ok path, s')) : path = store.pathOf relative ∧
      s'.files.read path = .ok (encode store.producer payload).pack := by
  obtain ⟨⟨⟩, s₁, -, h⟩ := Job.on_bind_ok h
  obtain ⟨⟨⟩, s₂, -, h⟩ := Job.on_bind_ok h
  obtain ⟨⟨⟩, s₃, hchange, h⟩ := Job.on_bind_ok h
  obtain ⟨fs, hreplace, rfl⟩ := Job.on_change_ok hchange
  cases h
  exact ⟨rfl, FileSystem.read_of_stat_file (FileSystem.stat_replace hreplace)⟩

theorem inspect_of_on_write {store : Store} (hp : Brief store.producer) {relative path : Path}
    {payload : Bytes} {s s' : Site} (h : (store.write relative payload).on s = (.ok path, s')) :
    store.inspect s'.files relative = .ok payload := by
  obtain ⟨rfl, hread⟩ := read_of_on_write h
  refine inspect_of_read hread ?_
  rw [Bytes.unpack_pack]
  exact decode_encode hp payload

/-! Stores count nothing. -/

theorem uncounted_read {ε : Type} (store : Store) (relative : Path) :
    Job.Uncounted (store.read relative : Job ε (Option Bytes)) := by
  refine Job.uncounted_bind Job.uncounted_files fun fs => ?_
  split
  · exact Job.uncounted_pure _
  · split
    · exact Job.uncounted_pure _
    · exact Job.uncounted_bind (Job.uncounted_tell _) fun _ => Job.uncounted_pure _

theorem uncounted_write (store : Store) (relative : Path) (payload : Bytes) :
    Job.Uncounted (store.write relative payload) :=
  Job.uncounted_bind (Job.uncounted_makeDirectories _ _) fun _ =>
    Job.uncounted_bind (Job.uncounted_change _ _) fun _ =>
      Job.uncounted_bind (Job.uncounted_change _ _) fun _ => Job.uncounted_pure _

theorem uncounted_writeOnce (store : Store) (relative : Path) (payload : Bytes) :
    Job.Uncounted (store.writeOnce relative payload) := by
  refine Job.uncounted_bind Job.uncounted_files fun fs => ?_
  split
  · exact Job.uncounted_pure false
  · exact Job.uncounted_bind (uncounted_write store relative payload) fun _ =>
      Job.uncounted_pure true

section Within

variable {working : Key} {writes : FileSystem.Writes} {store : Store} {relative : Path}
  {payload : Bytes}

theorem within_write
    (hw : writes ((store.pathOf relative).key working) (encode store.producer payload).pack) :
    Job.Within working writes (store.write relative payload) :=
  Job.within_bind (Job.within_makeDirectories _ _) fun _ =>
    Job.within_bind (Job.within_disturb _ _) fun _ =>
      Job.within_bind (Job.within_replace _ hw) fun _ => Job.within_pure _

theorem within_writeOnce
    (hw : writes ((store.pathOf relative).key working) (encode store.producer payload).pack) :
    Job.Within working writes (store.writeOnce relative payload) := by
  refine Job.within_bind (Job.obeys_files (Job.composes_evolves working writes)) fun fs => ?_
  split
  · exact Job.within_pure false
  · exact Job.within_bind (within_write hw) fun _ => Job.within_pure true

end Within

end Store

end Artifact

end Trainyard
