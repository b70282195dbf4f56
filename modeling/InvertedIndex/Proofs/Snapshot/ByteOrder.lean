import InvertedIndex.Proofs.Snapshot.Open

/-!
# `Proofs.Snapshot.ByteOrder` — texts are in the order of their bytes

A character is encoded as digits to the base 64, and the first byte has a mark that is the higher the
more digits there are. Of two characters the larger has either more digits or a larger one first, so
its bytes come later, whatever follows. Hence the order of texts by characters is that by bytes.

## Contents
- `lowDigits`, `digits`: a number to the base 64; `utf8EncodeChar_eq_digits`;
- `utf8EncodeChar_append_lt`: the order of two characters;
- `textBytes_lt_iff`, `textBytes_inj`, `textBytes_prefix_iff`: the order of two texts, and whether
  they are equal or one starts with the other, told by their bytes.
-/

namespace InvertedIndex

/-! ## Digits -/

/-- The lowest digits of a number to the base 64, each in a byte with its top bit set. -/
def lowDigits (v : Nat) : Nat → Bytes
  | 0 => []
  | k + 1 => UInt8.ofNat (v / 64 ^ k % 64 + 0x80) :: lowDigits v k

/-- A number to the base 64: the part above so many low digits, with a mark, and then these. -/
def digits (mark v k : Nat) : Bytes := UInt8.ofNat (v / 64 ^ k + mark) :: lowDigits v k

theorem ofNat_cons_lt {m n : Nat} (h : m < n) (hn : n < 256) (xs ys : Bytes) :
    UInt8.ofNat m :: xs < UInt8.ofNat n :: ys := by
  refine List.cons_lt_cons_iff.2 (.inl ?_)
  rw [UInt8.lt_iff_toNat_lt, UInt8.toNat_ofNat', UInt8.toNat_ofNat']
  omega

/-- Of numbers that agree above some low digits, the smaller has the smaller digits. -/
theorem lowDigits_append_lt {v w : Nat} (h : v < w) {k : Nat} (hsame : v / 64 ^ k = w / 64 ^ k)
    (xs ys : Bytes) : lowDigits v k ++ xs < lowDigits w k ++ ys := by
  induction k with
  | zero =>
    rw [Nat.pow_zero, Nat.div_one, Nat.div_one] at hsame
    exact absurd hsame (Nat.ne_of_lt h)
  | succ k ih =>
    have hle : v / 64 ^ k ≤ w / 64 ^ k := Nat.div_le_div_right h.le
    rw [Nat.pow_succ, ← Nat.div_div_eq_div_mul, ← Nat.div_div_eq_div_mul] at hsame
    rcases Nat.lt_or_eq_of_le hle with hlt | heq
    · exact ofNat_cons_lt (by omega) (by omega) _ _
    · rw [lowDigits, lowDigits, heq]
      exact List.cons_lt_cons_iff.2 (.inr ⟨rfl, ih heq⟩)

/-- The smaller of two numbers has the smaller digits, as long as the mark fits. -/
theorem digits_append_lt {mark v w k : Nat} (h : v < w) (hmark : w / 64 ^ k + mark < 256)
    (xs ys : Bytes) : digits mark v k ++ xs < digits mark w k ++ ys := by
  have hle : v / 64 ^ k ≤ w / 64 ^ k := Nat.div_le_div_right h.le
  rcases Nat.lt_or_eq_of_le hle with hlt | heq
  · exact ofNat_cons_lt (by omega) hmark _ _
  · rw [digits, digits, heq]
    exact List.cons_lt_cons_iff.2 (.inr ⟨rfl, lowDigits_append_lt h heq xs ys⟩)

/-! ## Characters -/

theorem char_lt (c : Char) : c.val.toNat < 0x110000 := by
  rcases c.valid with hlow | ⟨-, hhigh⟩
  · omega
  · exact hhigh

/-- The bytes of a character. -/
theorem utf8EncodeChar_eq_digits (c : Char) : String.utf8EncodeChar c =
    if c.val.toNat ≤ 0x7F then digits 0 c.val.toNat 0
    else if c.val.toNat ≤ 0x7FF then digits 0xC0 c.val.toNat 1
    else if c.val.toNat ≤ 0xFFFF then digits 0xE0 c.val.toNat 2
    else digits 0xF0 c.val.toNat 3 := by
  have hmax := char_lt c
  unfold String.utf8EncodeChar digits
  generalize c.val.toNat = v at hmax ⊢
  -- The part above the low digits fits into what the mark leaves of its byte.
  dsimp only
  split
  · rw [Nat.pow_zero, Nat.div_one]
    rfl
  split
  · rw [Nat.mod_eq_of_lt (by omega : v / 64 < 0x20)]
    simp only [lowDigits, Nat.pow_zero, Nat.pow_one, Nat.div_one]
  split
  · rw [Nat.mod_eq_of_lt (by omega : v / 4096 < 0x10)]
    simp only [lowDigits, Nat.pow_zero, Nat.pow_one, Nat.div_one]
    rfl
  · rw [Nat.mod_eq_of_lt (by omega : v / 262144 < 0x08)]
    simp only [lowDigits, Nat.pow_zero, Nat.pow_one, Nat.div_one]
    rfl

/-- **The smaller of two characters has the smaller bytes**, whatever follows them. -/
theorem utf8EncodeChar_append_lt {c d : Char} (h : c < d) (xs ys : Bytes) :
    String.utf8EncodeChar c ++ xs < String.utf8EncodeChar d ++ ys := by
  have hlt : c.val.toNat < d.val.toNat := UInt32.lt_iff_toNat_lt.1 h
  have hmax := char_lt d
  rw [utf8EncodeChar_eq_digits, utf8EncodeChar_eq_digits]
  generalize c.val.toNat = v at hlt ⊢
  generalize d.val.toNat = w at hlt hmax ⊢
  have hone : 64 ^ 1 = 64 := rfl
  have htwo : 64 ^ 2 = 4096 := rfl
  have hthree : 64 ^ 3 = 262144 := rfl
  -- With as many digits the digits decide, and with fewer the mark does.
  repeat' split
  all_goals first
    | exact digits_append_lt hlt (by omega) xs ys
    | exact ofNat_cons_lt (by omega) (by omega) _ _

/-! ## Texts -/

/-- **The smaller of two texts has the smaller bytes.** -/
theorem textBytes_lt {a b : String} (h : a < b) : textBytes a < textBytes b := by
  have hchars : a.toList < b.toList := h
  rw [textBytes_eq_flatMap, textBytes_eq_flatMap]
  generalize a.toList = front at hchars
  generalize b.toList = back at hchars
  induction front generalizing back with
  | nil =>
    cases back with
    | nil => cases hchars
    | cons d back =>
      obtain ⟨byte, bytes, hd⟩ := List.exists_cons_of_ne_nil (String.utf8EncodeChar_ne_nil (c := d))
      rw [List.flatMap_cons, hd]
      exact List.nil_lt_cons _ _
  | cons c front ih =>
    cases back with
    | nil => cases hchars
    | cons d back =>
      rw [List.flatMap_cons, List.flatMap_cons]
      rcases List.cons_lt_cons_iff.1 hchars with hlt | ⟨rfl, hrest⟩
      · exact utf8EncodeChar_append_lt hlt _ _
      · exact List.append_left_lt (ih back hrest)

theorem textBytes_lt_iff {a b : String} : textBytes a < textBytes b ↔ a < b := by
  refine ⟨fun h => ?_, textBytes_lt⟩
  by_contra hnot
  have hle : b ≤ a := String.not_lt.1 hnot
  by_cases hlt : b < a
  · exact List.lt_asymm h (textBytes_lt hlt)
  · rw [String.le_antisymm (String.not_lt.1 hlt) hle] at h
    exact List.lt_irrefl _ h

theorem textBytes_inj {a b : String} : textBytes a = textBytes b ↔ a = b := by
  refine ⟨fun h => ?_, congrArg textBytes⟩
  have hread := fromUTF8?_textBytes a
  rw [h, fromUTF8?_textBytes] at hread
  exact (Option.some.inj hread).symm

/-- A text starts with another if its bytes start with those of the other. -/
theorem textBytes_prefix_iff {a b : String} :
    textBytes a <+: textBytes b ↔ a.toList <+: b.toList := by
  constructor
  · rintro ⟨rest, h⟩
    refine List.isPrefix_of_utf8Encode_append_eq_utf8Encode ⟨rest.toArray⟩ ?_
    rw [← String.toByteArray_ofList, ← String.toByteArray_ofList, String.ofList_toList,
      String.ofList_toList]
    apply ByteArray.ext
    apply Array.toList_inj.1
    simpa [textBytes] using h
  · rintro ⟨rest, h⟩
    rw [textBytes_eq_flatMap, textBytes_eq_flatMap, ← h, List.flatMap_append]
    exact List.prefix_append _ _

end InvertedIndex
