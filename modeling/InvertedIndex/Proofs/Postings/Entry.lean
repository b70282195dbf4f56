import InvertedIndex.Postings.Entry
import InvertedIndex.Proofs.Bytes
import Mathlib.Algebra.Ring.Nat

/-!
# `Proofs.Postings.Entry` — entries read back

An entry whose member number has 12 bits and whose payload is shorter than 2³² bytes is read back
from its bytes, whatever follows them; so a block yields exactly the entries that were written.

## Contents
- `Entry.Fits`: the entries that the code can express;
- `Entry.encode_length`, `Entry.encodeAll_length`: the sizes that are accounted for entries;
- `Entry.readHead?_encode`, `Entry.decode?_encode`: one entry read back;
- `Entry.decodeAll_encodeAll`: a whole block.
-/

namespace InvertedIndex
namespace Entry

/-- The member number and the length of the payload fit their fields. -/
structure Fits (entry : Entry) : Prop where
  member : entry.member.toNat < 4096
  length : entry.payload.length < 2 ^ 32

instance (entry : Entry) : Decidable entry.Fits :=
  decidable_of_iff (entry.member.toNat < 4096 ∧ entry.payload.length < 2 ^ 32)
    ⟨fun h => ⟨h.1, h.2⟩, fun h => ⟨h.member, h.length⟩⟩

/-! ## Sizes -/

/-- An entry occupies the bytes that are accounted for it. -/
theorem encode_length (entry : Entry) :
    entry.encode.length = encodedSize entry.payload.length := by
  unfold encode encodedSize lengthBytes
  dsimp only
  split
  · simp only [List.length_append, Bytes.ofUInt16_length]
  · split
    · simp only [List.length_append, Bytes.ofUInt16_length, List.length_singleton]
    · split
      · simp only [List.length_append, Bytes.ofUInt16_length, List.length_cons]
      · simp only [List.length_append, Bytes.ofUInt16_length, List.length_cons,
          Bytes.ofUInt32_length]

theorem two_le_encodedSize (length : Nat) : 2 ≤ encodedSize length := by
  show 2 ≤ 2 + _ + length
  omega

theorem encode_ne_nil (entry : Entry) : entry.encode ≠ [] := by
  intro h
  have hlength := encode_length entry
  have hsize := two_le_encodedSize entry.payload.length
  rw [h, List.length_nil] at hlength
  omega

@[simp] theorem encodeAll_nil : encodeAll [] = [] := rfl

@[simp] theorem encodeAll_cons (entry : Entry) (rest : List Entry) :
    encodeAll (entry :: rest) = entry.encode ++ encodeAll rest := rfl

@[simp] theorem encodeAll_append (front back : List Entry) :
    encodeAll (front ++ back) = encodeAll front ++ encodeAll back := List.flatMap_append

/-- A block occupies the bytes that are accounted for its entries. -/
theorem encodeAll_length (entries : List Entry) : (encodeAll entries).length
    = (entries.map fun entry => encodedSize entry.payload.length).sum := by
  induction entries with
  | nil => rfl
  | cons entry rest ih =>
    rw [encodeAll_cons, List.length_append, encode_length, ih, List.map_cons, List.sum_cons]

theorem encodeAll_isEmpty {entries : List Entry} :
    (encodeAll entries).isEmpty = entries.isEmpty := by
  cases entries with
  | nil => rfl
  | cons entry rest => simp [encode_ne_nil]

/-! ## The length in front of a payload -/

/-- The bytes of an extended length are read back. -/
theorem readLength?_lengthBytes {length : Nat} (rest : Bytes) (hshort : extendedLength ≤ length)
    (hlong : length < 2 ^ 32) :
    readLength? 7 (lengthBytes length ++ rest) = some (length, rest) := by
  have hcode : ¬ (7 : UInt16) < 7 := by decide
  have hmin : 7 ≤ length := hshort
  unfold lengthBytes
  split
  next hbyte =>
    have hnat : length.toUInt8.toNat = length := Nat.mod_eq_of_lt (by omega)
    -- Lengths from 7 on: a byte can be neither `0` nor `1`, which announce the longer forms.
    have hzero : length.toUInt8 ≠ 0 := fun h => by
      rw [h] at hnat
      have : (0 : UInt8).toNat = 0 := rfl
      omega
    have hone : length.toUInt8 ≠ 1 := fun h => by
      rw [h] at hnat
      have : (1 : UInt8).toNat = 1 := rfl
      omega
    simp only [readLength?, if_neg hcode, List.singleton_append, if_neg hzero, if_neg hone, hnat]
  next hbyte =>
    split
    next hword =>
      have hnat : length.toUInt16.toNat = length := Nat.mod_eq_of_lt (by omega)
      simp only [readLength?, if_neg hcode, List.cons_append, if_true,
        Bytes.readUInt16?_ofUInt16, Bytes.mapRead, hnat]
    next hword =>
      have hnat : length.toUInt32.toNat = length := Nat.mod_eq_of_lt (by omega)
      have hone : ¬ (1 : UInt8) = 0 := by decide
      simp only [readLength?, if_neg hcode, List.cons_append, if_neg hone, if_true,
        Bytes.readUInt32?_ofUInt32, Bytes.mapRead, hnat]

/-! ## One entry -/

theorem readHead?_encode {entry : Entry} (h : entry.Fits) (rest : Bytes) :
    readHead? (entry.encode ++ rest)
      = some (⟨entry.member, entry.payload.length⟩, entry.payload ++ rest) := by
  unfold encode
  dsimp only
  split
  next hshort =>
    have hlt : entry.payload.length < 7 := hshort
    have hnat : entry.payload.length.toUInt16.toNat = entry.payload.length :=
      Nat.mod_eq_of_lt (by omega)
    have hcode : entry.payload.length.toUInt16 < 7 := UInt16.lt_iff_toNat_lt.2 (by
      rw [hnat]
      exact hlt)
    rw [List.append_assoc]
    simp only [readHead?, Bytes.readUInt16?_ofUInt16,
      Bytes.header_code h.member (by omega : entry.payload.length.toUInt16.toNat < 16),
      Bytes.header_number h.member (by omega : entry.payload.length.toUInt16.toNat < 16),
      readLength?, if_pos hcode, Bytes.mapRead, hnat]
  next hlong =>
    rw [List.append_assoc, List.append_assoc]
    simp only [readHead?, Bytes.readUInt16?_ofUInt16,
      Bytes.header_code h.member (by decide : (7 : UInt16).toNat < 16),
      Bytes.header_number h.member (by decide : (7 : UInt16).toNat < 16),
      readLength?_lengthBytes _ (Nat.le_of_not_lt hlong) h.length, Bytes.mapRead]

theorem decode?_encode {entry : Entry} (h : entry.Fits) (rest : Bytes) :
    decode? (entry.encode ++ rest) = some (entry, rest) := by
  simp only [decode?, readHead?_encode h, Bytes.take?_append _ _ rfl, Bytes.mapRead]

@[simp] theorem decode?_nil : decode? [] = none := rfl

/-! ## Whole blocks -/

theorem decodeAll_of_none {bytes : Bytes} (h : decode? bytes = none) : decodeAll bytes = [] := by
  unfold decodeAll
  split
  · rfl
  next hsome =>
    rw [h] at hsome
    cases hsome

theorem decodeAll_of_some {bytes rest : Bytes} {entry : Entry}
    (h : decode? bytes = some (entry, rest)) : decodeAll bytes = entry :: decodeAll rest := by
  rw [decodeAll]
  split
  next hnone =>
    rw [h] at hnone
    cases hnone
  next hsome =>
    rw [h] at hsome
    cases hsome
    rfl

/-- **A block yields what was written.** -/
theorem decodeAll_encodeAll {entries : List Entry} (h : ∀ entry ∈ entries, entry.Fits) :
    decodeAll (encodeAll entries) = entries := by
  induction entries with
  | nil => exact decodeAll_of_none decode?_nil
  | cons entry rest ih =>
    obtain ⟨hentry, hrest⟩ := List.forall_mem_cons.1 h
    rw [encodeAll_cons, decodeAll_of_some (decode?_encode hentry _), ih hrest]

end Entry
end InvertedIndex
