import Mathlib
import Trainyard.Proofs.Binary.Forms

/-!
# What a value costs in bytes

A writer takes a number of bytes for a value that does not depend on what follows. The readers take
longer forms as well, but none that is shorter: the bytes that a value was read from always cover
those that it would be written in. The law is kept along every reader that is put together from
smaller ones, whatever lengths and counts the bytes declare, because a declared count is spent item
by item.
-/

set_option autoImplicit false

namespace Trainyard.Binary

variable {α : Type}

def cost (write : Writer α) (a : α) : Nat := (write a []).length

def Steady (write : Writer α) : Prop :=
  ∀ a rest, (write a rest).length = cost write a + rest.length

def Covers (read : Reader α) (write : Writer α) (good : α → Prop) : Prop :=
  ∀ b a rest, read b = some (a, rest) → good a ∧ cost write a + rest.length ≤ b.length

/-! ## Numbers and texts -/

theorem length_nat (n : Nat) (rest : Bytes) : (nat n rest).length =
    (if n < 251 then 1 else if n < UInt16.size then 3 else if n < UInt32.size then 5 else 9) +
      rest.length := by
  rw [nat]
  split
  · simp [Nat.add_comm]
  · split
    · simp [Bytes.length_littleEndian]
      omega
    · split
      · simp [Bytes.length_littleEndian]
        omega
      · simp [Bytes.length_littleEndian]
        omega

theorem cost_nat (n : Nat) : cost nat n =
    if n < 251 then 1 else if n < UInt16.size then 3 else if n < UInt32.size then 5 else 9 :=
  length_nat n []

theorem steady_nat : Steady nat := by
  intro n rest
  rw [length_nat, cost_nat]

theorem cost_nat_pos (n : Nat) : 0 < cost nat n := lt_length_nat n []

theorem cost_nat_mono {m n : Nat} (h : m ≤ n) : cost nat m ≤ cost nat n := by
  rw [cost_nat, cost_nat, UInt16.size, UInt32.size]
  split_ifs <;> omega

/-- Each form is wide enough for its number, and the writer takes the shortest that is. -/
theorem NumberForm.covers {wide : Bool} {n : Nat} {front : Bytes} (h : NumberForm wide n front) :
    (n < if wide then UInt64.size else UInt32.size) ∧ cost nat n ≤ front.length := by
  have hwidth : UInt32.size ≤ if wide then UInt64.size else UInt32.size := by
    cases wide <;> decide
  have hsmall : 251 < UInt16.size ∧ UInt16.size < UInt32.size := by decide
  have hvalue {b : Bytes} {k : Nat} (hb : b.length = k) : Bytes.toNat b < Nat.pow 256 k :=
    hb ▸ Bytes.toNat_lt b
  rw [cost_nat]
  cases h with
  | @one m hm =>
    have hn : m.toNat < 251 := UInt8.lt_iff_toNat_lt.1 hm
    refine ⟨by omega, ?_⟩
    rw [if_pos hn]
    rfl
  | @two b hb =>
    have hn : Bytes.toNat b < UInt16.size := hvalue hb
    refine ⟨by omega, ?_⟩
    rw [List.length_cons, hb]
    split_ifs <;> omega
  | @four b hb =>
    have hn : Bytes.toNat b < UInt32.size := hvalue hb
    refine ⟨by omega, ?_⟩
    rw [List.length_cons, hb]
    split_ifs <;> omega
  | @eight b hb hwide =>
    refine ⟨?_, ?_⟩
    · rw [hwide]
      exact hvalue hb
    · rw [List.length_cons, hb]
      split_ifs <;> omega

theorem covers_readNat (wide : Bool) :
    Covers (readNat wide) nat fun n => n < if wide then UInt64.size else UInt32.size := by
  intro b n rest h
  obtain ⟨front, hform, rfl⟩ := numberForm_of_readNat h
  obtain ⟨hlt, hcost⟩ := hform.covers
  refine ⟨hlt, ?_⟩
  rw [List.length_append]
  omega

theorem steady_text : Steady text := by
  intro s rest
  have hfront := steady_nat (Bytes.ofText s).length
  rw [cost, text, text, hfront, hfront, List.length_append, List.length_append, List.length_nil]
  omega

theorem cost_text (s : String) :
    cost text s = cost nat (Bytes.ofText s).length + (Bytes.ofText s).length := by
  rw [cost, text, steady_nat, List.append_nil]

theorem covers_readText : Covers readText text Fits := by
  intro b s rest h
  obtain ⟨front, ⟨hsize⟩, rfl⟩ := (reads_readText _ _ _).1 h
  obtain ⟨hfits, hcost⟩ := hsize.covers
  refine ⟨hfits, ?_⟩
  rw [cost_text, List.length_append, List.length_append]
  omega

/-! ## Options and lists -/

section Items

variable {write : Writer α} {read : Reader α} {good : α → Prop}

theorem steady_option (h : Steady write) : Steady (option write) := by
  intro o rest
  cases o with
  | none => simp [cost, option, Nat.add_comm]
  | some a =>
    rw [cost, option, option, List.length_cons, List.length_cons, h, h a []]
    simp only [List.length_nil]
    omega

theorem covers_readOption (h : Covers read write good) :
    Covers (readOption read) (option write) fun o => ∀ a ∈ o, good a := by
  intro b o rest hb
  unfold readOption at hb
  split at hb
  next r =>
    cases hb
    refine ⟨nofun, ?_⟩
    simp [cost, option, Nat.add_comm]
  next r =>
    obtain ⟨⟨a, r'⟩, ha, hpair⟩ := Option.map_eq_some_iff.1 hb
    cases hpair
    obtain ⟨hgood, hcost⟩ := h r a rest ha
    refine ⟨fun x hx => Option.mem_some_iff.1 hx ▸ hgood, ?_⟩
    rw [cost] at hcost
    rw [cost, option, List.length_cons, List.length_cons]
    omega
  next => cases hb

theorem length_foldr (xs : List α) (rest : Bytes)
    (h : ∀ x ∈ xs, ∀ rest, (write x rest).length = cost write x + rest.length) :
    (xs.foldr write rest).length = (xs.map (cost write)).sum + rest.length := by
  induction xs with
  | nil => simp
  | cons x xs ih =>
    rw [List.forall_mem_cons] at h
    rw [List.foldr_cons, h.1, ih h.2, List.map_cons, List.sum_cons]
    omega

theorem length_list (xs : List α) (rest : Bytes)
    (h : ∀ x ∈ xs, ∀ rest, (write x rest).length = cost write x + rest.length) :
    (list write xs rest).length =
      cost nat xs.length + (xs.map (cost write)).sum + rest.length := by
  rw [list, steady_nat, length_foldr xs rest h, Nat.add_assoc]

theorem cost_list (h : Steady write) (xs : List α) :
    cost (list write) xs = cost nat xs.length + (xs.map (cost write)).sum :=
  length_list xs [] fun x _ => h x

theorem steady_list (h : Steady write) : Steady (list write) := by
  intro xs rest
  rw [length_list xs rest fun x _ => h x, cost_list h]

/-- Some of the items, in any order, take no more bytes than all of them. -/
theorem cost_list_le_of_subperm (h : Steady write) {xs ys : List α} (hsome : xs.Subperm ys) :
    cost (list write) xs ≤ cost (list write) ys := by
  obtain ⟨zs, hperm, hsub⟩ := hsome
  have hcount : cost nat xs.length ≤ cost nat ys.length :=
    cost_nat_mono (hperm.length_eq ▸ hsub.length_le)
  have hitems : (xs.map (cost write)).sum ≤ (ys.map (cost write)).sum := by
    rw [← (hperm.map (cost write)).sum_eq]
    exact (hsub.map _).sum_le_sum fun _ _ => Nat.zero_le _
  rw [cost_list h, cost_list h]
  omega

theorem covers_readMany (h : Covers read write good) {n : Nat} {acc xs : List α} {b rest : Bytes}
    (hread : readMany read n acc b = some (xs, rest)) :
    ∃ found, xs = acc.reverse ++ found ∧ found.length = n ∧ (∀ x ∈ found, good x) ∧
      (found.map (cost write)).sum + rest.length ≤ b.length := by
  induction n generalizing acc b with
  | zero =>
    cases hread
    exact ⟨[], by simp, rfl, nofun, by simp⟩
  | succ n ih =>
    rw [readMany] at hread
    split at hread
    next a mid ha =>
      obtain ⟨hgood, hcost⟩ := h b a mid ha
      obtain ⟨found, rfl, hcount, hall, hrest⟩ := ih hread
      refine ⟨a :: found, by simp, by simp [hcount], List.forall_mem_cons.2 ⟨hgood, hall⟩, ?_⟩
      rw [List.map_cons, List.sum_cons]
      omega
    next => cases hread

theorem covers_readList (h : Covers read write good) (hwrite : Steady write) :
    Covers (readList read) (list write) fun xs =>
      xs.length < UInt64.size ∧ ∀ x ∈ xs, good x := by
  intro b xs rest hread
  obtain ⟨⟨n, mid⟩, hcount, hmany⟩ := Option.bind_eq_some_iff.1 hread
  obtain ⟨hlt, hcost⟩ := covers_readNat true _ _ _ hcount
  obtain ⟨found, rfl, rfl, hgood, hitems⟩ := covers_readMany h hmany
  refine ⟨⟨hlt, hgood⟩, ?_⟩
  rw [cost_list hwrite]
  omega

end Items

end Trainyard.Binary
