import InvertedIndex.Bytes
import Mathlib.Algebra.Group.Nat.Defs
import Mathlib.Tactic.Common

/-!
# `Proofs.Bytes` — little-endian integers read back

An integer that was written is read back, whatever bytes follow it. The proofs go through the value
of the bytes as a number, lowest first.

## Contents
- `textBytes_eq_flatMap`: the bytes of a text; `utf8EncodeChar_ascii`, `utf8EncodeChar_wide`: those
  of a character;
- `Bytes.toUInt16_toNat`, `Bytes.toUInt32_toNat`, `Bytes.toUInt64_toNat`: the values of bytes;
- `Bytes.readUInt16?_ofUInt16`, `Bytes.readUInt32?_ofUInt32`, `Bytes.readUInt64?_ofUInt64`;
- `Bytes.header_number`, `Bytes.header_code`: a 12-bit number and a 4-bit code in one header;
- `Bytes.take?_append`: as many bytes as were put in front.
-/

namespace InvertedIndex

/-! ## Texts -/

theorem textBytes_eq_flatMap (text : String) :
    textBytes text = text.toList.flatMap String.utf8EncodeChar := by
  have hencode : text.toByteArray = text.toList.utf8Encode := by
    rw [← String.toByteArray_ofList, String.ofList_toList]
  rw [textBytes, String.toUTF8_eq_toByteArray, hencode, List.utf8Encode]
  simp

theorem toUInt8_toNat {c : Char} (h : c.toNat < 0x80) : c.toUInt8.toNat = c.toNat :=
  Nat.mod_eq_of_lt (Nat.lt_trans h (by decide))

/-- Characters of ASCII are told by their numbers as bytes. -/
theorem toUInt8_inj {c d : Char} (hc : c.toNat < 0x80) (hd : d.toNat < 0x80) :
    c.toUInt8 = d.toUInt8 ↔ c = d := by
  rw [← UInt8.toNat_inj, toUInt8_toNat hc, toUInt8_toNat hd, Char.toNat_inj]

theorem wide_ne {c mark : Char} (hc : 0x80 ≤ c.toNat) (hmark : mark.toNat < 0x80) : c ≠ mark := by
  rintro rfl
  omega

/-- A byte with its top bit set is none of theirs. -/
theorem ne_of_wide {byte : UInt8} {mark : Char} (hbyte : 0x80 ≤ byte.toNat)
    (hmark : mark.toNat < 0x80) : byte ≠ mark.toUInt8 := by
  rintro rfl
  rw [toUInt8_toNat hmark] at hbyte
  omega

/-- A character of ASCII is one byte, its number. -/
theorem utf8EncodeChar_ascii {c : Char} (h : c.toNat < 0x80) :
    c.utf8Size = 1 ∧ String.utf8EncodeChar c = [c.toUInt8] := by
  have hsize : c.utf8Size = 1 := by
    rw [Char.utf8Size_eq_one_iff, UInt32.le_iff_toNat_le]
    exact Nat.le_of_lt_succ h
  exact ⟨hsize, String.utf8EncodeChar_eq_singleton hsize⟩

/-- Any other has several bytes, each with its top bit set. -/
theorem utf8EncodeChar_wide {c : Char} (h : 0x80 ≤ c.toNat) :
    1 < c.utf8Size ∧ ∀ byte ∈ String.utf8EncodeChar c, 0x80 ≤ byte.toNat := by
  have hnat : c.val.toNat = c.toNat := rfl
  refine ⟨?_, ?_⟩
  · have hpos := c.utf8Size_pos
    have hone : c.utf8Size ≠ 1 := by
      rw [Ne, Char.utf8Size_eq_one_iff, UInt32.le_iff_toNat_le]
      exact Nat.not_le.2 h
    omega
  · intro byte hbyte
    unfold String.utf8EncodeChar at hbyte
    dsimp only at hbyte
    rw [hnat] at hbyte
    split at hbyte
    · omega
    split at hbyte
    · simp [← UInt8.toNat_inj] at hbyte
      omega
    split at hbyte
    · simp [← UInt8.toNat_inj] at hbyte
      omega
    · simp [← UInt8.toNat_inj] at hbyte
      omega

namespace Bytes

/-! ## Lengths -/

@[simp] theorem ofUInt16_length (n : UInt16) : (ofUInt16 n).length = 2 := rfl

@[simp] theorem ofUInt32_length (n : UInt32) : (ofUInt32 n).length = 4 := rfl

@[simp] theorem ofUInt64_length (n : UInt64) : (ofUInt64 n).length = 8 := rfl

/-! ## The values of bytes -/

/-- Bits above a number that stays below them add to it. -/
theorem or_shiftLeft_eq {low high : Nat} (k : Nat) (h : low < 2 ^ k) :
    low ||| (high <<< k) = low + high * 2 ^ k := by
  rw [Nat.or_comm, ← Nat.shiftLeft_add_eq_or_of_lt h, Nat.shiftLeft_eq, Nat.add_comm]

theorem toUInt16_toNat (a b : UInt8) : (toUInt16 a b).toNat = a.toNat + b.toNat * 256 := by
  have ha := a.toNat_lt
  have hb := b.toNat_lt
  have hshift : (b.toUInt16 <<< 8).toNat = b.toNat <<< 8 := by
    rw [UInt16.toNat_shiftLeft, UInt8.toNat_toUInt16]
    refine Nat.mod_eq_of_lt ?_
    show b.toNat <<< 8 < 2 ^ 16
    rw [Nat.shiftLeft_eq]
    omega
  rw [toUInt16, UInt16.toNat_or, hshift, UInt8.toNat_toUInt16, or_shiftLeft_eq 8 (by omega)]
  simp only [Nat.reducePow]

theorem toUInt32_toNat (a b c d : UInt8) :
    (toUInt32 a b c d).toNat
      = a.toNat + b.toNat * 2 ^ 8 + c.toNat * 2 ^ 16 + d.toNat * 2 ^ 24 := by
  have ha := a.toNat_lt
  have hb := b.toNat_lt
  have hc := c.toNat_lt
  have hd := d.toNat_lt
  have hshift (x : UInt8) (k : UInt32) (hk : k.toNat ≤ 24) :
      (x.toUInt32 <<< k).toNat = x.toNat <<< k.toNat := by
    have hx := x.toNat_lt
    rw [UInt32.toNat_shiftLeft, UInt8.toNat_toUInt32, Nat.mod_eq_of_lt (by omega : k.toNat < 32)]
    refine Nat.mod_eq_of_lt ?_
    rw [Nat.shiftLeft_eq]
    calc x.toNat * 2 ^ k.toNat ≤ x.toNat * 2 ^ 24 :=
          Nat.mul_le_mul_left _ (Nat.pow_le_pow_right (by omega) hk)
      _ < 2 ^ 32 := by omega
  rw [toUInt32, UInt32.toNat_or, UInt32.toNat_or, UInt32.toNat_or, hshift b 8 (by decide),
    hshift c 16 (by decide), hshift d 24 (by decide), UInt8.toNat_toUInt32]
  show a.toNat ||| b.toNat <<< 8 ||| c.toNat <<< 16 ||| d.toNat <<< 24 = _
  rw [or_shiftLeft_eq 8 (by omega), or_shiftLeft_eq 16 (by omega), or_shiftLeft_eq 24 (by omega)]

theorem toUInt64_toNat (low high : UInt32) :
    (toUInt64 low high).toNat = low.toNat + high.toNat * 2 ^ 32 := by
  have hlow := low.toNat_lt
  have hhigh := high.toNat_lt
  have hshift : (high.toUInt64 <<< 32).toNat = high.toNat <<< 32 := by
    rw [UInt64.toNat_shiftLeft, UInt32.toNat_toUInt64]
    refine Nat.mod_eq_of_lt ?_
    show high.toNat <<< 32 < 2 ^ 64
    rw [Nat.shiftLeft_eq]
    omega
  rw [toUInt64, UInt64.toNat_or, hshift, UInt32.toNat_toUInt64, or_shiftLeft_eq 32 (by omega)]

/-! ## Read back -/

theorem toUInt16_bytes (n : UInt16) : toUInt16 n.toUInt8 (n >>> 8).toUInt8 = n := by
  have hn := n.toNat_lt
  apply UInt16.toNat_inj.1
  rw [toUInt16_toNat]
  simp only [UInt16.toNat_toUInt8, UInt16.toNat_shiftRight, Nat.shiftRight_eq_div_pow,
    UInt16.reduceToNat, Nat.reduceMod, Nat.reducePow]
  omega

theorem toUInt32_bytes (n : UInt32) :
    toUInt32 n.toUInt8 (n >>> 8).toUInt8 (n >>> 16).toUInt8 (n >>> 24).toUInt8 = n := by
  have hn := n.toNat_lt
  apply UInt32.toNat_inj.1
  rw [toUInt32_toNat]
  simp only [UInt32.toNat_toUInt8, UInt32.toNat_shiftRight, Nat.shiftRight_eq_div_pow,
    UInt32.reduceToNat, Nat.reduceMod, Nat.reducePow]
  omega

/-- The eight bytes of a 64-bit integer are those of its halves. -/
theorem toUInt64_bytes (n : UInt64) :
    toUInt64 (toUInt32 n.toUInt8 (n >>> 8).toUInt8 (n >>> 16).toUInt8 (n >>> 24).toUInt8)
      (toUInt32 (n >>> 32).toUInt8 (n >>> 40).toUInt8 (n >>> 48).toUInt8 (n >>> 56).toUInt8)
      = n := by
  have hn := n.toNat_lt
  apply UInt64.toNat_inj.1
  rw [toUInt64_toNat, toUInt32_toNat, toUInt32_toNat]
  simp only [UInt64.toNat_toUInt8, UInt64.toNat_shiftRight, Nat.shiftRight_eq_div_pow,
    UInt64.reduceToNat, Nat.reduceMod, Nat.reducePow]
  omega

@[simp] theorem readUInt16?_ofUInt16 (n : UInt16) (rest : Bytes) :
    readUInt16? (ofUInt16 n ++ rest) = some (n, rest) := by
  simp only [ofUInt16, List.cons_append, List.nil_append, readUInt16?, toUInt16_bytes]

@[simp] theorem readUInt32?_ofUInt32 (n : UInt32) (rest : Bytes) :
    readUInt32? (ofUInt32 n ++ rest) = some (n, rest) := by
  simp only [ofUInt32, List.cons_append, List.nil_append, readUInt32?, toUInt32_bytes]

@[simp] theorem readUInt64?_ofUInt64 (n : UInt64) (rest : Bytes) :
    readUInt64? (ofUInt64 n ++ rest) = some (n, rest) := by
  simp only [ofUInt64, List.cons_append, List.nil_append, readUInt64?, toUInt64_bytes]

/-! ## Numbers packed into a header -/

/-- A 12-bit number above a 4-bit code. -/
theorem header_toNat {number code : UInt16} (hnumber : number.toNat < 4096)
    (hcode : code.toNat < 16) :
    ((number <<< 4) ||| code).toNat = number.toNat * 16 + code.toNat := by
  have hshift : (number <<< 4).toNat = number.toNat <<< 4 := by
    rw [UInt16.toNat_shiftLeft]
    refine Nat.mod_eq_of_lt ?_
    show number.toNat <<< 4 < 2 ^ 16
    rw [Nat.shiftLeft_eq]
    omega
  rw [UInt16.toNat_or, hshift, ← Nat.shiftLeft_add_eq_or_of_lt (i := 4) hcode, Nat.shiftLeft_eq]

theorem header_number {number code : UInt16} (hnumber : number.toNat < 4096)
    (hcode : code.toNat < 16) : ((number <<< 4) ||| code) >>> 4 = number := by
  apply UInt16.toNat_inj.1
  rw [UInt16.toNat_shiftRight, header_toNat hnumber hcode]
  show (number.toNat * 16 + code.toNat) >>> 4 = number.toNat
  rw [Nat.shiftRight_eq_div_pow]
  omega

theorem header_code {number code : UInt16} (hnumber : number.toNat < 4096)
    (hcode : code.toNat < 16) : ((number <<< 4) ||| code) &&& 0xF = code := by
  apply UInt16.toNat_inj.1
  rw [UInt16.toNat_and, header_toNat hnumber hcode]
  show (number.toNat * 16 + code.toNat) &&& 2 ^ 4 - 1 = code.toNat
  rw [Nat.and_two_pow_sub_one_eq_mod]
  omega

/-! ## Runs of bytes -/

theorem take?_append {count : Nat} (taken rest : Bytes) (h : taken.length = count) :
    take? count (taken ++ rest) = some (taken, rest) := by
  subst h
  simp [take?, List.splitAt_eq]

end Bytes
end InvertedIndex
