import Trainyard.Binary

/-!
# The compact notation ends itself

A reader that found a value finds the same value in front of any further bytes,
and hands those on untouched. The law is stated between two readers, so that one
that allows less nesting can be compared with one that allows more.
-/

set_option autoImplicit false

namespace Trainyard.Binary

def Extends {α : Type} (read read' : Reader α) : Prop :=
  ∀ b a rest tail, read b = some (a, rest) → read' (b ++ tail) = some (a, rest ++ tail)

section Readers

variable {α β γ : Type}

theorem extends_some (a : α) : Extends (fun b => some (a, b)) (fun b => some (a, b)) := by
  intro b a' rest tail h
  cases h
  rfl

theorem extends_bind {read read' : Reader α} {next next' : α → Reader β}
    (h : Extends read read') (hn : ∀ a, Extends (next a) (next' a)) :
    Extends (fun b => (read b).bind fun x => next x.1 x.2)
      (fun b => (read' b).bind fun x => next' x.1 x.2) := by
  intro b c rest tail hc
  obtain ⟨⟨a, mid⟩, ha, hb⟩ := Option.bind_eq_some_iff.1 hc
  show ((read' (b ++ tail)).bind fun x => next' x.1 x.2) = some (c, rest ++ tail)
  rw [h b a mid tail ha]
  exact hn a mid c rest tail hb

theorem extends_check (o : Option γ) {next next' : γ → Reader α}
    (hn : ∀ c, Extends (next c) (next' c)) :
    Extends (fun b => o.bind fun c => next c b) (fun b => o.bind fun c => next' c b) := by
  intro b a rest tail h
  obtain ⟨c, hc, hb⟩ := Option.bind_eq_some_iff.1 h
  show (o.bind fun c => next' c (b ++ tail)) = some (a, rest ++ tail)
  rw [hc]
  exact hn c b a rest tail hb

theorem extends_map {read read' : Reader α} (f : α → β) (h : Extends read read') :
    Extends (fun b => (read b).map fun (a, r) => (f a, r))
      (fun b => (read' b).map fun (a, r) => (f a, r)) := by
  intro b c rest tail hc
  obtain ⟨⟨a, r⟩, ha, he⟩ := Option.map_eq_some_iff.1 hc
  cases he
  simp [h b a rest tail ha]

theorem extends_bytes (k : Nat) : Extends (bytes k) (bytes k) := by
  intro b a rest tail h
  simp only [bytes, List.length_take] at h
  split at h
  next hk =>
    cases h
    have hle : k ≤ b.length := by omega
    have front : (b.take k).length = k := by simp [hle]
    have whole := bytes_append (b.take k) (b.drop k ++ tail)
    rwa [← List.append_assoc, List.take_append_drop, front] at whole
  next => simp at h

theorem extends_readNat (wide : Bool) : Extends (readNat wide) (readNat wide) := by
  intro b n rest tail h
  cases b with
  | nil => simp [readNat] at h
  | cons m r =>
    have digits (k : Nat) := extends_map Bytes.toNat (extends_bytes k) r n rest tail
    rw [readNat] at h
    rw [List.cons_append, readNat]
    split at h
    next hm =>
      cases h
      rw [if_pos hm]
    next hm =>
      rw [if_neg hm]
      split at h
      next h2 => rw [if_pos h2]; exact digits 2 h
      next h2 =>
        rw [if_neg h2]
        split at h
        next h4 => rw [if_pos h4]; exact digits 4 h
        next h4 =>
          rw [if_neg h4]
          split at h
          next h8 => rw [if_pos h8]; exact digits 8 h
          next => simp at h

theorem extends_readText : Extends readText readText :=
  extends_bind (extends_readNat true) fun n =>
    extends_bind (extends_bytes n) fun s =>
      extends_check (Bytes.toText? s) extends_some

theorem extends_readOption {read read' : Reader α} (h : Extends read read') :
    Extends (readOption read) (readOption read') := by
  intro b o rest tail hb
  unfold readOption at hb
  split at hb
  next r =>
    cases hb
    rfl
  next r => exact extends_map some h r o rest tail hb
  next => simp at hb

theorem extends_readMany {read read' : Reader α} (h : Extends read read') (n : Nat)
    (acc : List α) : Extends (readMany read n acc) (readMany read' n acc) := by
  induction n generalizing acc with
  | zero => exact extends_some acc.reverse
  | succ n ih =>
    intro b xs rest tail hb
    rw [readMany] at hb
    split at hb
    next a mid ha =>
      rw [readMany, h b a mid tail ha]
      exact ih (a :: acc) mid xs rest tail hb
    next => simp at hb

theorem extends_readList {read read' : Reader α} (h : Extends read read') :
    Extends (readList read) (readList read') :=
  extends_bind (extends_readNat true) fun n => extends_readMany h n []

end Readers

section RoundTrip

variable {α : Type}

def Fits (s : String) : Prop := (Bytes.ofText s).length < UInt64.size

instance (s : String) : Decidable (Fits s) := inferInstanceAs (Decidable (_ < _))

theorem readOption_option (write : Writer α) (read : Reader α) (o : Option α) (rest : Bytes)
    (h : ∀ a ∈ o, read (write a rest) = some (a, rest)) :
    readOption read (option write o rest) = some (o, rest) := by
  cases o with
  | none => rfl
  | some a => simp [option, readOption, h a rfl]

theorem readList_list (write : Writer α) (read : Reader α) (xs : List α) (rest : Bytes)
    (hl : xs.length < UInt64.size) (h : ∀ x ∈ xs, ∀ tail, read (write x tail) = some (x, tail)) :
    readList read (list write xs rest) = some (xs, rest) := by
  have hn := readNat_nat true xs.length (xs.foldr write rest) hl
  simp [readList, readLength, list, hn, readMany_foldr write read xs [] rest h]

end RoundTrip

section Length

variable {α : Type}

theorem lt_length_nat (n : Nat) (rest : Bytes) : rest.length < (nat n rest).length := by
  have hwide (m : UInt8) (front : Bytes) : rest.length < (m :: (front ++ rest)).length := by
    rw [List.length_cons, List.length_append]
    omega
  rw [nat]
  split
  · exact hwide _ []
  · split
    · exact hwide _ _
    · split
      · exact hwide _ _
      · exact hwide _ _

theorem lt_length_text (s : String) (rest : Bytes) : rest.length < (text s rest).length := by
  have h := lt_length_nat (Bytes.ofText s).length (Bytes.ofText s ++ rest)
  rw [List.length_append] at h
  exact Nat.lt_of_le_of_lt (Nat.le_add_left _ _) h

theorem length_foldr_lt_list (write : Writer α) (xs : List α) (rest : Bytes) :
    (xs.foldr write rest).length < (list write xs rest).length :=
  lt_length_nat xs.length _

theorem le_length_foldr {write : Writer α} (h : ∀ a rest, rest.length ≤ (write a rest).length)
    (xs : List α) (rest : Bytes) : rest.length ≤ (xs.foldr write rest).length := by
  induction xs with
  | nil => exact Nat.le_refl _
  | cons x xs ih => exact Nat.le_trans ih (h x _)

end Length

end Trainyard.Binary
