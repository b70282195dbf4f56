import InvertedIndex.Proofs.Bytes
import InvertedIndex.Snapshot.TermData

/-!
# `Proofs.Snapshot.TermData` — the postings of a term read back

Each form that is written is read back, whatever bytes follow it: the length of a group in one, two
or three bytes; a value in none to four; an occurrence; a list whose length stands in its header or
behind it; an entry; a group.

## Contents
- `decodeLength?_encodeLength`, `decodeGroup?_encodeGroup`;
- `lowBits_toNat`, `lowBits_eq`, `Occurrence.stored`: what a list keeps of an occurrence;
- `decodeValue?_valueBytes`, `decodeOccurrence?_encodeOccurrence`, `decodeList?_encode`;
- `contentOf`, `kept`, `Writable`: what an entry holds, what it gives back, and when it can be
  written;
- `decodeMember?_encodeEntry`, `occurrences?_contentOf`.
-/

namespace InvertedIndex

/-! ## Positions -/

/-- Of a position 14 bits are written. -/
theorem lowBits_toNat (p : Position) : (p &&& largestPosition).toNat = p.toNat % 2 ^ 14 := by
  rw [UInt16.toNat_and]
  exact Nat.and_two_pow_sub_one_eq_mod _ 14

theorem lowBits_le (p : Position) : p &&& largestPosition ≤ largestPosition := by
  rw [UInt16.le_iff_toNat_le, lowBits_toNat]
  exact Nat.le_of_lt_succ (Nat.mod_lt _ (by decide))

theorem lowBits_le_self (p : Position) : p &&& largestPosition ≤ p := by
  rw [UInt16.le_iff_toNat_le, lowBits_toNat]
  exact Nat.mod_le _ _

/-- A position that 14 bits hold is written as it is. -/
theorem lowBits_eq {p : Position} (h : p ≤ largestPosition) : p &&& largestPosition = p := by
  have hle : p.toNat ≤ 0x3FFF := UInt16.le_iff_toNat_le.1 h
  rw [← UInt16.toNat_inj, lowBits_toNat]
  exact Nat.mod_eq_of_lt (Nat.lt_succ_of_le hle)

namespace TermData

/-! ## Groups -/

/-- Two bits above a number of six. -/
theorem lead_toNat {mark low : UInt8} {k : Nat} (hmark : mark.toNat = 2 ^ 6 * k)
    (hlow : low.toNat < 64) : (mark ||| low).toNat = 2 ^ 6 * k + low.toNat := by
  rw [UInt8.toNat_or, hmark, Nat.two_pow_add_eq_or_of_lt hlow]

theorem lead_mark {mark low : UInt8} {k : Nat} (hmark : mark.toNat = 2 ^ 6 * k)
    (hlow : low.toNat < 64) : ((mark ||| low) >>> 6).toNat = k := by
  rw [UInt8.toNat_shiftRight, lead_toNat hmark hlow]
  show (2 ^ 6 * k + low.toNat) >>> 6 = k
  rw [Nat.shiftRight_eq_div_pow]
  omega

theorem lead_low {mark low : UInt8} {k : Nat} (hmark : mark.toNat = 2 ^ 6 * k)
    (hlow : low.toNat < 64) : ((mark ||| low) &&& 0x3F).toNat = low.toNat := by
  rw [UInt8.toNat_and, lead_toNat hmark hlow]
  show (2 ^ 6 * k + low.toNat) &&& 2 ^ 6 - 1 = low.toNat
  rw [Nat.and_two_pow_sub_one_eq_mod]
  omega

/-- The mark of the first byte tells which of the three forms a length has. -/
theorem lead_mark_eq_iff {mark low code : UInt8} {k : Nat} (hmark : mark.toNat = 2 ^ 6 * k)
    (hlow : low.toNat < 64) : (mark ||| low) >>> 6 = code ↔ code.toNat = k := by
  rw [← UInt8.toNat_inj, lead_mark hmark hlow, eq_comm]

theorem decodeLength?_one {length : Nat} (h : length ≤ 0x3F) (rest : Bytes) :
    decodeLength? (length.toUInt8 :: rest) = some (length, rest) := by
  have hnat : length.toUInt8.toNat = length := Nat.mod_eq_of_lt (by omega)
  have hmark : length.toUInt8 >>> 6 = 0 := by
    apply UInt8.toNat_inj.1
    rw [UInt8.toNat_shiftRight, hnat]
    show length >>> 6 = 0
    rw [Nat.shiftRight_eq_div_pow]
    omega
  rw [decodeLength?, if_pos hmark, hnat]

theorem decodeLength?_two {high : UInt8} (hhigh : high.toNat < 64) (low : UInt8) (rest : Bytes) :
    decodeLength? ((0x40 ||| high) :: low :: rest)
      = some (high.toNat * 0x100 + low.toNat, rest) := by
  have hk : (0x40 : UInt8).toNat = 2 ^ 6 * 1 := rfl
  simp only [decodeLength?, lead_mark_eq_iff hk hhigh, lead_low hk hhigh, Bytes.readUInt8?,
    Bytes.mapRead]
  rfl

theorem decodeLength?_three {high : UInt8} (hhigh : high.toNat < 64) (low : UInt16) (rest : Bytes) :
    decodeLength? ((0x80 ||| high) :: (Bytes.ofUInt16 low ++ rest))
      = some (high.toNat * 0x10000 + low.toNat, rest) := by
  have hk : (0x80 : UInt8).toNat = 2 ^ 6 * 2 := rfl
  simp only [decodeLength?, lead_mark_eq_iff hk hhigh, lead_low hk hhigh,
    Bytes.readUInt16?_ofUInt16, Bytes.mapRead]
  rfl

/-- The length of a body is read back in each of its forms. -/
theorem decodeLength?_encodeLength {length : Nat} (h : length ≤ maxGroupBytes) (rest : Bytes) :
    decodeLength? (encodeLength length ++ rest) = some (length, rest) := by
  have hmax : length ≤ 0x3FFFFF := h
  unfold encodeLength
  split
  next hone => exact decodeLength?_one hone rest
  next hone =>
    split
    next htwo =>
      have hhigh : (length / 0x100).toUInt8.toNat = length / 0x100 := Nat.mod_eq_of_lt (by omega)
      have hlow : length.toUInt8.toNat = length % 0x100 := rfl
      refine (decodeLength?_two (by omega) length.toUInt8 rest).trans ?_
      rw [hhigh, hlow, Nat.div_add_mod']
    next htwo =>
      have hhigh : ((length / 0x10000).toUInt8 &&& 0x3F).toNat = length / 0x10000 := by
        rw [UInt8.toNat_and]
        show (length / 0x10000 % 2 ^ 8) &&& 2 ^ 6 - 1 = _
        rw [Nat.and_two_pow_sub_one_eq_mod]
        omega
      have hlow : length.toUInt16.toNat = length % 0x10000 := rfl
      refine (decodeLength?_three (by omega) length.toUInt16 rest).trans ?_
      rw [hhigh, hlow, Nat.div_add_mod']

theorem decodeGroup?_encodeGroup {body : Bytes} (h : body.length ≤ maxGroupBytes) (number : UInt16)
    (rest : Bytes) :
    decodeGroup? (encodeGroup number body ++ rest) = some ⟨number, body, rest⟩ := by
  rw [encodeGroup, List.append_assoc, List.append_assoc]
  simp only [decodeGroup?, Bytes.readUInt16?_ofUInt16, decodeLength?_encodeLength h,
    Bytes.take?_append body rest rfl]

/-! ## Values -/

/-- A value that is not negative, as a number. -/
theorem toNat_of_nonneg {value : Int32} (h : 0 ≤ value) :
    (value.toUInt32.toNat : Int) = value.toInt := by
  have hzero : (0 : Int32).toInt = 0 := rfl
  have hint : value.toInt = if 2 * value.toUInt32.toNat < 2 ^ 32 then (value.toUInt32.toNat : Int)
      else (value.toUInt32.toNat : Int) - (2 ^ 32 : Nat) :=
    BitVec.toInt_eq_toNat_cond value.toBitVec
  have hlt := value.toUInt32.toNat_lt
  rw [Int32.le_iff_toInt_le, hzero] at h
  split at hint <;> omega

/-- A value between `0` and a bound, as a number. -/
theorem toNat_le {value bound : Int32} (hzero : 0 ≤ value) (hle : value ≤ bound) :
    value.toUInt32.toNat ≤ bound.toUInt32.toNat := by
  have hbound : 0 ≤ bound := Int32.le_trans hzero hle
  have hvalue := toNat_of_nonneg hzero
  have hbound' := toNat_of_nonneg hbound
  rw [Int32.le_iff_toInt_le] at hle
  omega

/-- A value of one byte is read back. -/
theorem readUInt8?_valueBytes {value : Int32} (h : value.toUInt32.toNat ≤ 0xFF) (rest : Bytes) :
    ∃ byte, Bytes.readUInt8? (valueBytes value 1 ++ rest) = some (byte, rest) ∧
      byte.toUInt32.toInt32 = value := by
  have hbyte : value.toUInt32.toUInt8.toUInt32 = value.toUInt32 := by
    apply UInt32.toNat_inj.1
    rw [UInt8.toNat_toUInt32, UInt32.toNat_toUInt8]
    omega
  exact ⟨value.toUInt32.toUInt8, rfl, by rw [hbyte]; rfl⟩

/-- A value of two bytes is read back. -/
theorem readUInt16?_valueBytes {value : Int32} (h : value.toUInt32.toNat ≤ 0xFFFF) (rest : Bytes) :
    ∃ word, Bytes.readUInt16? (valueBytes value 2 ++ rest) = some (word, rest) ∧
      word.toUInt32.toInt32 = value := by
  have hbytes : valueBytes value 2 = Bytes.ofUInt16 value.toUInt32.toUInt16 := by
    have hlow : value.toUInt32.toUInt16.toUInt8 = value.toUInt32.toUInt8 := by
      apply UInt8.toNat_inj.1
      rw [UInt16.toNat_toUInt8, UInt32.toNat_toUInt16, UInt32.toNat_toUInt8]
      omega
    have hhigh : (value.toUInt32.toUInt16 >>> 8).toUInt8 = (value.toUInt32 >>> 8).toUInt8 := by
      apply UInt8.toNat_inj.1
      rw [UInt16.toNat_toUInt8, UInt32.toNat_toUInt8, UInt16.toNat_shiftRight,
        UInt32.toNat_shiftRight, UInt32.toNat_toUInt16]
      show (value.toUInt32.toNat % 2 ^ 16) >>> 8 % 2 ^ 8 = value.toUInt32.toNat >>> 8 % 2 ^ 8
      rw [Nat.shiftRight_eq_div_pow, Nat.shiftRight_eq_div_pow]
      omega
    rw [Bytes.ofUInt16, hlow, hhigh]
    rfl
  have hword : value.toUInt32.toUInt16.toUInt32 = value.toUInt32 := by
    apply UInt32.toNat_inj.1
    rw [UInt16.toNat_toUInt32, UInt32.toNat_toUInt16]
    omega
  rw [hbytes, Bytes.readUInt16?_ofUInt16]
  exact ⟨value.toUInt32.toUInt16, rfl, by rw [hword]; rfl⟩

/-- A value of four bytes is read back. -/
theorem readUInt32?_valueBytes (value : Int32) (rest : Bytes) :
    ∃ word, Bytes.readUInt32? (valueBytes value 4 ++ rest) = some (word, rest) ∧
      word.toInt32 = value := by
  have hbytes : valueBytes value 4 = Bytes.ofUInt32 value.toUInt32 := rfl
  rw [hbytes, Bytes.readUInt32?_ofUInt32]
  exact ⟨value.toUInt32, rfl, rfl⟩

/-! ## Lists of occurrences -/

end TermData

/-- The occurrence as a list keeps it: of its position only the low 14 bits. -/
def Occurrence.stored (occurrence : Occurrence) : Occurrence :=
  { occurrence with position := occurrence.position &&& largestPosition }

theorem Occurrence.stored_eq {occurrence : Occurrence} (h : occurrence.position ≤ largestPosition) :
    occurrence.stored = occurrence := by
  rw [stored, lowBits_eq h]

namespace TermData

/-- The width code of a value has two bits, and the value is read back from its bytes. -/
theorem widthOf_spec (value : Int32) (rest : Bytes) : (widthOf value).1.toNat < 4 ∧
    decodeValue? (widthOf value).1 (valueBytes value (widthOf value).2 ++ rest)
      = some (value, rest) := by
  unfold widthOf
  -- The least width that holds the value, and reading goes through the same codes in the same
  -- order.
  split
  next hzero =>
    subst hzero
    exact ⟨by decide, rfl⟩
  next hzero =>
    split
    next hone =>
      have hnonneg : (0 : Int32) ≤ value := Int32.le_trans (by decide) hone.1
      obtain ⟨byte, hread, hbyte⟩ := readUInt8?_valueBytes (toNat_le hnonneg hone.2) rest
      refine ⟨by decide, ?_⟩
      rw [decodeValue?, if_neg (by decide), if_pos rfl, hread, Bytes.mapRead, hbyte]
    next hone =>
      split
      next htwo =>
        have hnonneg : (0 : Int32) ≤ value := Int32.le_trans (by decide) htwo.1
        obtain ⟨word, hread, hword⟩ := readUInt16?_valueBytes (toNat_le hnonneg htwo.2) rest
        refine ⟨by decide, ?_⟩
        rw [decodeValue?, if_neg (by decide), if_neg (by decide), if_pos rfl, hread, Bytes.mapRead,
          hword]
      next htwo =>
        obtain ⟨word, hread, hword⟩ := readUInt32?_valueBytes value rest
        refine ⟨by decide, ?_⟩
        rw [decodeValue?, if_neg (by decide), if_neg (by decide), if_neg (by decide), hread,
          Bytes.mapRead, hword]

/-- A code of two bits above the 14 bits that are kept of a position. -/
theorem word_toNat (position : UInt16) {code : UInt16} (hcode : code.toNat < 4) :
    ((position &&& largestPosition) ||| (code <<< 14)).toNat
      = position.toNat % 2 ^ 14 + code.toNat * 2 ^ 14 := by
  have hshift : (code <<< 14).toNat = code.toNat <<< 14 := by
    rw [UInt16.toNat_shiftLeft]
    refine Nat.mod_eq_of_lt ?_
    show code.toNat <<< 14 < 2 ^ 16
    rw [Nat.shiftLeft_eq]
    omega
  rw [UInt16.toNat_or, lowBits_toNat, hshift, Bytes.or_shiftLeft_eq 14 (Nat.mod_lt _ (by decide))]

/-- **An occurrence is read back** with what a list keeps of its position. -/
theorem decodeOccurrence?_encodeOccurrence (occurrence : Occurrence) (rest : Bytes) :
    decodeOccurrence? (encodeOccurrence occurrence ++ rest) = some (occurrence.stored, rest) := by
  obtain ⟨hcode, hvalue⟩ := widthOf_spec occurrence.value rest
  have hword := word_toNat occurrence.position hcode
  have hposition : ((occurrence.position &&& largestPosition) |||
      ((widthOf occurrence.value).1 <<< 14)) &&& largestPosition
        = occurrence.position &&& largestPosition := by
    apply UInt16.toNat_inj.1
    rw [lowBits_toNat, hword, lowBits_toNat]
    omega
  have hshift : ((occurrence.position &&& largestPosition) |||
      ((widthOf occurrence.value).1 <<< 14)) >>> 14 = (widthOf occurrence.value).1 := by
    apply UInt16.toNat_inj.1
    rw [UInt16.toNat_shiftRight, hword]
    show _ >>> 14 = _
    rw [Nat.shiftRight_eq_div_pow]
    omega
  have hencode : encodeOccurrence occurrence = Bytes.ofUInt16
      ((occurrence.position &&& largestPosition) ||| ((widthOf occurrence.value).1 <<< 14))
        ++ valueBytes occurrence.value (widthOf occurrence.value).2 := rfl
  rw [hencode, List.append_assoc]
  simp only [decodeOccurrence?, Bytes.readUInt16?_ofUInt16, hposition, hshift, hvalue,
    Bytes.mapRead]
  rfl

theorem encodeOccurrence_length (occurrence : Occurrence) :
    2 ≤ (encodeOccurrence occurrence).length := by
  show 2 ≤ (Bytes.ofUInt16 _ ++ _).length
  rw [List.length_append, Bytes.ofUInt16_length]
  omega

theorem valueBytes_length_le (value : Int32) (count : Nat) : (valueBytes value count).length ≤ 4 := by
  rw [valueBytes, List.length_take, Bytes.ofUInt32_length]
  exact Nat.min_le_right _ _

/-- Occurrences take up at most six bytes each. -/
theorem encodeOccurrences_length_le (occurrences : List Occurrence) :
    (occurrences.flatMap encodeOccurrence).length ≤ 6 * occurrences.length := by
  induction occurrences with
  | nil => simp
  | cons occurrence rest ih =>
    have hfirst : (encodeOccurrence occurrence).length ≤ 6 := by
      show (Bytes.ofUInt16 _ ++ valueBytes _ _).length ≤ 6
      rw [List.length_append, Bytes.ofUInt16_length]
      exact Nat.add_le_add_left (valueBytes_length_le _ _) 2
    rw [List.flatMap_cons, List.length_append, List.length_cons]
    omega

/-- The header of an entry takes up at most six bytes. -/
theorem encodeEntry_length_le (member : UInt16) (occurrences : List Occurrence) :
    (encodeEntry member occurrences).length ≤ 6 + 6 * occurrences.length := by
  have hvalue (header : UInt16) (value : Int32) : (encodeValue header value).length ≤ 6 := by
    have hwide (code : UInt16) (count : Nat) :
        (Bytes.ofUInt16 code ++ valueBytes value count).length ≤ 6 := by
      rw [List.length_append, Bytes.ofUInt16_length]
      exact Nat.add_le_add_left (valueBytes_length_le _ _) 2
    unfold encodeValue
    split
    · simp
    · split
      · exact hwide _ _
      · split
        · exact hwide _ _
        · exact hwide _ _
  have hlist (header : UInt16) :
      (encodeList header occurrences).length ≤ 6 + 6 * occurrences.length := by
    have hsize := encodeOccurrences_length_le occurrences
    unfold encodeList
    dsimp only
    split
    · simp only [List.length_append, Bytes.ofUInt16_length, Bytes.ofUInt32_length]
      omega
    · simp only [List.length_append, Bytes.ofUInt16_length]
      omega
  unfold encodeEntry
  split
  next position value =>
    split
    · exact Nat.le_trans (hvalue _ value) (Nat.le_add_right 6 _)
    · exact hlist _
  · exact hlist _

/-- In front of the body of a group stand at most five bytes. -/
theorem encodeGroup_length_le (number : UInt16) (body : Bytes) :
    (encodeGroup number body).length ≤ 5 + body.length := by
  have hlength : (encodeLength body.length).length ≤ 3 := by
    unfold encodeLength
    split
    · simp
    · split
      · simp
      · simp
  rw [encodeGroup, List.length_append, List.length_append, Bytes.ofUInt16_length]
  omega

theorem decodeList?_of_none {list : Bytes} (hlist : list ≠ [])
    (h : decodeOccurrence? list = none) : decodeList? list = none := by
  unfold decodeList?
  rw [if_neg (by simpa using hlist)]
  split
  · rfl
  next hsome =>
    rw [h] at hsome
    cases hsome

theorem decodeList?_of_some {list rest : Bytes} {occurrence : Occurrence}
    (h : decodeOccurrence? list = some (occurrence, rest)) :
    decodeList? list = (decodeList? rest).map (occurrence :: ·) := by
  have hlength := decodeOccurrence?_length h
  have hlist : ¬ list.isEmpty := by
    rw [List.isEmpty_iff]
    rintro rfl
    exact Nat.not_lt_zero _ hlength
  rw [decodeList?, if_neg hlist]
  split
  next hnone =>
    rw [h] at hnone
    cases hnone
  next hsome =>
    rw [h] at hsome
    cases hsome
    rfl

/-- A list of occurrences is read back. -/
theorem decodeList?_encode (occurrences : List Occurrence) :
    decodeList? (occurrences.flatMap encodeOccurrence)
      = some (occurrences.map Occurrence.stored) := by
  induction occurrences with
  | nil =>
    unfold decodeList?
    rfl
  | cons occurrence rest ih =>
    rw [List.flatMap_cons, decodeList?_of_some (decodeOccurrence?_encodeOccurrence _ _), ih]
    rfl

/-! ## Entries -/

/-- What an entry with the given occurrences holds. -/
def contentOf (occurrences : List Occurrence) : Content :=
  match occurrences with
  | [⟨position, value⟩] =>
    if position = 0 then .value value else .list (occurrences.flatMap encodeOccurrence)
  | _ => .list (occurrences.flatMap encodeOccurrence)

/-- Occurrences at positions other than `0` are written as a list. -/
theorem isBare_eq_false {occurrences : List Occurrence}
    (h : ∀ occurrence ∈ occurrences, occurrence.position ≠ 0) : isBare occurrences = false := by
  rcases occurrences with _ | ⟨⟨position, value⟩, _ | ⟨second, others⟩⟩
  · rfl
  · exact decide_eq_false (h ⟨position, value⟩ List.mem_cons_self)
  · rfl

/-- The occurrences that an entry gives back: a bare value has none, and of the positions of a list
    only the low 14 bits are kept. -/
def kept (occurrences : List Occurrence) : List Occurrence :=
  if isBare occurrences then [] else occurrences.map Occurrence.stored

/-- Positions that fit their 14 bits are kept. -/
theorem kept_eq {occurrences : List Occurrence}
    (h : ∀ occurrence ∈ occurrences, occurrence.position ≤ largestPosition) :
    kept occurrences = if isBare occurrences then [] else occurrences := by
  have hsame : occurrences.map Occurrence.stored = occurrences.map id :=
    List.map_congr_left fun occurrence hoccurrence => Occurrence.stored_eq (h occurrence hoccurrence)
  rw [kept, hsame, List.map_id]

/-- Occurrences that an entry can hold: at least one, in a list whose length fits its field. -/
structure Writable (occurrences : List Occurrence) : Prop where
  nonempty : occurrences ≠ []
  length : (occurrences.flatMap encodeOccurrence).length ≤ 2 ^ 32

theorem Writable.two_le_length {occurrences : List Occurrence} (h : Writable occurrences) :
    2 ≤ (occurrences.flatMap encodeOccurrence).length := by
  obtain ⟨occurrence, rest, rfl⟩ := List.exists_cons_of_ne_nil h.nonempty
  have hlength := encodeOccurrence_length occurrence
  rw [List.flatMap_cons, List.length_append]
  omega

/-- The member number and the code of a header are read back. -/
theorem decodeMember?_header {member code : UInt16} (hmember : member.toNat < 4096)
    (hcode : code.toNat < 16) {bytes rest : Bytes} {content : Content}
    (h : decodeContent? code bytes = some (content, rest)) :
    decodeMember? (Bytes.ofUInt16 ((member <<< 4) ||| code) ++ bytes)
      = some ⟨member, content, rest⟩ := by
  simp only [decodeMember?, Bytes.readUInt16?_ofUInt16, Bytes.header_code hmember hcode,
    Bytes.header_number hmember hcode, h]

/-- A code up to 4 is the value. -/
theorem decodeContent?_code {code : UInt16} (hcode : code.toNat ≤ 4) (rest : Bytes) :
    decodeContent? code rest = some (.value code.toUInt32.toInt32, rest) := by
  -- Five codes, checked one by one.
  have hcases : ∀ n ≤ 4, n.toUInt16 &&& 8 = 0 ∧ n.toUInt16 ≤ 4 := by decide
  have hnat : code.toNat.toUInt16 = code := UInt16.ofNat_toNat
  obtain ⟨height, hfour⟩ := hcases code.toNat hcode
  rw [hnat] at height hfour
  unfold decodeContent?
  rw [if_neg (not_not.2 height), if_pos hfour]

theorem decodeMember?_encodeValue {member : UInt16} (hmember : member.toNat < 4096) (value : Int32)
    (rest : Bytes) : decodeMember? (encodeValue (member <<< 4) value ++ rest)
      = some ⟨member, .value value, rest⟩ := by
  unfold encodeValue
  split
  next hcode =>
    have hsmall : value.toUInt32.toNat ≤ 4 := toNat_le hcode.1 hcode.2
    have hnat : value.toUInt32.toUInt16.toNat = value.toUInt32.toNat := by
      rw [UInt32.toNat_toUInt16]
      omega
    have hread := decodeContent?_code (hnat ▸ hsmall) rest
    have hword : value.toUInt32.toUInt16.toUInt32 = value.toUInt32 := by
      apply UInt32.toNat_inj.1
      rw [UInt16.toNat_toUInt32, hnat]
    rw [hword] at hread
    exact decodeMember?_header hmember (by omega) hread
  next hcode =>
    split
    next hone =>
      have hsmall := toNat_le (Int32.le_trans (by decide) hone.1) hone.2
      obtain ⟨byte, hread, hbyte⟩ := readUInt8?_valueBytes hsmall rest
      rw [List.append_assoc]
      refine decodeMember?_header hmember (by decide) ?_
      rw [decodeContent?, if_neg (by decide), if_neg (by decide), if_pos rfl, hread, Bytes.mapRead,
        hbyte]
    next hone =>
      split
      next htwo =>
        have hsmall := toNat_le (Int32.le_trans (by decide) htwo.1) htwo.2
        obtain ⟨word, hread, hword⟩ := readUInt16?_valueBytes hsmall rest
        rw [List.append_assoc]
        refine decodeMember?_header hmember (by decide) ?_
        rw [decodeContent?, if_neg (by decide), if_neg (by decide), if_neg (by decide), if_pos rfl,
          hread, Bytes.mapRead, hword]
      next htwo =>
        obtain ⟨word, hread, hword⟩ := readUInt32?_valueBytes value rest
        rw [List.append_assoc]
        refine decodeMember?_header hmember (by decide) ?_
        rw [decodeContent?, if_neg (by decide), if_neg (by decide), if_neg (by decide),
          if_neg (by decide), hread, Bytes.mapRead, hword]

theorem decodeMember?_encodeList {member : UInt16} (hmember : member.toNat < 4096)
    {occurrences : List Occurrence} (h : Writable occurrences) (rest : Bytes) :
    decodeMember? (encodeList (member <<< 4) occurrences ++ rest)
      = some ⟨member, .list (occurrences.flatMap encodeOccurrence), rest⟩ := by
  have htwo := h.two_le_length
  have hlength := h.length
  unfold encodeList
  simp only
  generalize occurrences.flatMap encodeOccurrence = list at htwo hlength ⊢
  split
  next hlong =>
    have hstored : (list.length - 1).toUInt32.toNat = list.length - 1 :=
      Nat.mod_eq_of_lt (by omega)
    rw [List.append_assoc, List.append_assoc]
    refine decodeMember?_header hmember (by decide) ?_
    have height : (8 : UInt16) &&& 8 ≠ 0 := by decide
    have hseven : (8 : UInt16) &&& 7 = 0 := by decide
    have hlist : list.length = (list.length - 1).toUInt32.toNat + 1 := by omega
    simp only [decodeContent?, if_pos height, if_pos hseven, Bytes.readUInt32?_ofUInt32,
      Bytes.take?_append list rest hlist, Bytes.mapRead]
  next hshort =>
    -- Seven lengths stand in the code itself, next to the bit that marks a list.
    have hcases : ∀ n ≤ 7, 1 ≤ n → ((8 : UInt16) ||| n.toUInt16) &&& 8 ≠ 0 ∧
        ((8 : UInt16) ||| n.toUInt16) &&& 7 ≠ 0 ∧
        (((8 : UInt16) ||| n.toUInt16) &&& 7).toNat + 1 = n + 1 ∧
        ((8 : UInt16) ||| n.toUInt16).toNat < 16 := by decide
    obtain ⟨height, hseven, hnat, hcode⟩ := hcases (list.length - 1) (by omega) (by omega)
    rw [List.append_assoc, UInt16.or_assoc]
    refine decodeMember?_header hmember hcode ?_
    simp only [decodeContent?, if_pos height, if_neg hseven, hnat,
      Bytes.take?_append list rest (by omega : list.length = list.length - 1 + 1), Bytes.mapRead]

/-- **An entry is read back.** -/
theorem decodeMember?_encodeEntry {member : UInt16} (hmember : member.toNat < 4096)
    {occurrences : List Occurrence} (h : Writable occurrences) (rest : Bytes) :
    decodeMember? (encodeEntry member occurrences ++ rest)
      = some ⟨member, contentOf occurrences, rest⟩ := by
  rcases occurrences with _ | ⟨⟨position, value⟩, _ | ⟨second, others⟩⟩
  · exact absurd rfl h.nonempty
  · by_cases hzero : position = 0
    · simp only [encodeEntry, contentOf, if_pos hzero]
      exact decodeMember?_encodeValue hmember value rest
    · simp only [encodeEntry, contentOf, if_neg hzero]
      exact decodeMember?_encodeList hmember h rest
  · exact decodeMember?_encodeList hmember h rest

/-- The positions of a list are read back; a bare value has none. -/
theorem occurrences?_contentOf {occurrences : List Occurrence} (h : occurrences ≠ []) :
    (contentOf occurrences).occurrences? = some (kept occurrences) := by
  rcases occurrences with _ | ⟨⟨position, value⟩, _ | ⟨second, others⟩⟩
  · exact absurd rfl h
  · by_cases hzero : position = 0
    · simp only [contentOf, kept, isBare, hzero, decide_true, if_true]
      rfl
    · simp only [contentOf, kept, isBare, if_neg hzero, decide_eq_false hzero,
        Bool.false_eq_true, if_false]
      exact decodeList?_encode _
  · exact decodeList?_encode _

end TermData
end InvertedIndex
