import InvertedIndex.DocId
import InvertedIndex.Window

/-!
# `InvertedIndex.Snapshot.TermData` — the postings of a term as bytes

The data of a term is a run of groups, ascending by number. A group is

    u16      its number
    …        the length of its body, in 1 to 3 bytes
    …        its body: entries, ascending by member number

The two top bits of the first length byte tell how many bytes the length has; the bits below them
are the length itself, high byte first, except that the last two of three bytes are little-endian.
An entry starts with a 16-bit header, the member number times 16 plus a control code:

    code 0 … 4    a value, the code itself
    code 5, 6, 7  a value of 1, 2 or 4 bytes, which follow
    code 9 … 15   a list of as many bytes as the low three bits say, plus one
    code 8        a list whose length, less one, follows in 4 bytes

A list holds occurrences: a 16-bit word with the position and, in its top two bits, the width of the
value, then the value in 0, 1, 2 or 4 bytes.

## Contents
- `Occurrence`; `encodeEntry`, `encodeGroup`;
- `decodeGroup?`, `decodeMember?`, `decodeList?`, each with a bound on what it leaves.
-/

namespace InvertedIndex

/-- A position of a term in a document, with a value. -/
structure Occurrence where
  position : Position
  value : Int32
  deriving Repr, DecidableEq

namespace TermData

/-! ## Writing -/

/-- The most bytes that the body of a group has. -/
def maxGroupBytes : Nat := 0x3FFFFF

/-- The width code of a value in a list, and its bytes. -/
def widthOf (value : Int32) : UInt16 × Nat :=
  if value = 0 then (0, 0)
  else if 1 ≤ value ∧ value ≤ 0xFF then (1, 1)
  else if 0x100 ≤ value ∧ value ≤ 0xFFFF then (2, 2)
  else (3, 4)

/-- The first bytes of a value. -/
def valueBytes (value : Int32) (count : Nat) : Bytes := (Bytes.ofUInt32 value.toUInt32).take count

/-- An occurrence in a list. Of the position only the low 14 bits are written. -/
def encodeOccurrence (occurrence : Occurrence) : Bytes :=
  let (code, width) := widthOf occurrence.value
  Bytes.ofUInt16 ((occurrence.position &&& largestPosition) ||| (code <<< 14))
    ++ valueBytes occurrence.value width

/-- A bare value behind the member bits of a header. -/
def encodeValue (header : UInt16) (value : Int32) : Bytes :=
  if 0 ≤ value ∧ value ≤ 4 then Bytes.ofUInt16 (header ||| value.toUInt32.toUInt16)
  else if 5 ≤ value ∧ value ≤ 0xFF then Bytes.ofUInt16 (header ||| 5) ++ valueBytes value 1
  else if 0x100 ≤ value ∧ value ≤ 0xFFFF then Bytes.ofUInt16 (header ||| 6) ++ valueBytes value 2
  else Bytes.ofUInt16 (header ||| 7) ++ valueBytes value 4

/-- A list behind the member bits of a header. Its length is at least 2, so its length less one
    leaves the code 0 free to announce a length of four bytes. -/
def encodeList (header : UInt16) (occurrences : List Occurrence) : Bytes :=
  let list := occurrences.flatMap encodeOccurrence
  let stored := list.length - 1
  if 7 < stored then Bytes.ofUInt16 (header ||| 8) ++ Bytes.ofUInt32 stored.toUInt32 ++ list
  else Bytes.ofUInt16 (header ||| 8 ||| stored.toUInt16) ++ list

/-- Whether occurrences are written as a bare value. -/
def isBare : List Occurrence → Bool
  | [⟨position, _⟩] => position = 0
  | _ => false

/-- An entry. A lone occurrence at position 0 is written as a bare value. -/
def encodeEntry (member : UInt16) (occurrences : List Occurrence) : Bytes :=
  match occurrences with
  | [⟨position, value⟩] =>
    if position = 0 then encodeValue (member <<< 4) value else encodeList (member <<< 4) occurrences
  | _ => encodeList (member <<< 4) occurrences

/-- The length of a body of at most `maxGroupBytes` bytes. -/
def encodeLength (length : Nat) : Bytes :=
  if length ≤ 0x3F then [length.toUInt8]
  else if length ≤ 0x3FFF then [0x40 ||| (length / 0x100).toUInt8, length.toUInt8]
  else ((0x80 : UInt8) ||| ((length / 0x10000).toUInt8 &&& 0x3F)) :: Bytes.ofUInt16 length.toUInt16

/-- A group with the given body. -/
def encodeGroup (number : UInt16) (body : Bytes) : Bytes :=
  Bytes.ofUInt16 number ++ encodeLength body.length ++ body

/-! ## Reading -/

/-- A group off the front of some data. -/
structure DecodedGroup where
  number : UInt16
  body : Bytes
  /-- The data behind the group. -/
  rest : Bytes

/-- The length of a body off the front, and the rest. -/
def decodeLength? : Bytes → Option (Nat × Bytes)
  | [] => none
  | lead :: rest =>
    let high := (lead &&& 0x3F).toNat
    if lead >>> 6 = 0 then some (lead.toNat, rest)
    else if lead >>> 6 = 1 then
      Bytes.mapRead (fun low => high * 0x100 + low.toNat) (Bytes.readUInt8? rest)
    else if lead >>> 6 = 2 then
      Bytes.mapRead (fun low => high * 0x10000 + low.toNat) (Bytes.readUInt16? rest)
    else none

/-- A group off the front, `none` if no whole one stands there. -/
def decodeGroup? (data : Bytes) : Option DecodedGroup :=
  match Bytes.readUInt16? data with
  | none => none
  | some (number, rest) =>
    match decodeLength? rest with
    | none => none
    | some (length, rest) =>
      match Bytes.take? length rest with
      | none => none
      | some (body, rest) => some ⟨number, body, rest⟩

/-- What an entry holds. -/
inductive Content where
  | value (value : Int32)
  /-- The bytes of a list of occurrences, at least one. -/
  | list (bytes : Bytes)
  deriving Repr, DecidableEq

/-- An entry off the front of a body. -/
structure DecodedEntry where
  member : UInt16
  content : Content
  /-- The body behind the entry. -/
  rest : Bytes

/-- The content behind a header with the given control code, and the rest. -/
def decodeContent? (code : UInt16) (bytes : Bytes) : Option (Content × Bytes) :=
  if code &&& 8 ≠ 0 then
    if code &&& 7 = 0 then
      match Bytes.readUInt32? bytes with
      | none => none
      | some (stored, rest) =>
        Bytes.mapRead .list (Bytes.take? (stored.toNat + 1) rest)
    else Bytes.mapRead .list (Bytes.take? ((code &&& 7).toNat + 1) bytes)
  else if code ≤ 4 then some (.value code.toUInt32.toInt32, bytes)
  else if code = 5 then
    Bytes.mapRead (fun value => .value value.toUInt32.toInt32) (Bytes.readUInt8? bytes)
  else if code = 6 then
    Bytes.mapRead (fun value => .value value.toUInt32.toInt32) (Bytes.readUInt16? bytes)
  else Bytes.mapRead (fun value => .value value.toInt32) (Bytes.readUInt32? bytes)

/-- An entry off the front of a body, `none` if no whole one stands there. -/
def decodeMember? (body : Bytes) : Option DecodedEntry :=
  match Bytes.readUInt16? body with
  | none => none
  | some (header, rest) =>
    match decodeContent? (header &&& 0xF) rest with
    | none => none
    | some (content, rest) => some ⟨header >>> 4, content, rest⟩

/-- A value of a list with the given width code, and the rest. -/
def decodeValue? (code : UInt16) (bytes : Bytes) : Option (Int32 × Bytes) :=
  if code = 0 then some (0, bytes)
  else if code = 1 then
    Bytes.mapRead (fun value => value.toUInt32.toInt32) (Bytes.readUInt8? bytes)
  else if code = 2 then
    Bytes.mapRead (fun value => value.toUInt32.toInt32) (Bytes.readUInt16? bytes)
  else Bytes.mapRead (fun value => value.toInt32) (Bytes.readUInt32? bytes)

/-- An occurrence off the front of a list, and the rest. -/
def decodeOccurrence? (list : Bytes) : Option (Occurrence × Bytes) :=
  match Bytes.readUInt16? list with
  | none => none
  | some (word, rest) =>
    Bytes.mapRead (fun value => ⟨word &&& largestPosition, value⟩) (decodeValue? (word >>> 14) rest)

/-! ## Bounds on what is left -/

theorem decodeLength?_length {bytes rest : Bytes} {n : Nat}
    (h : decodeLength? bytes = some (n, rest)) : rest.length + 1 ≤ bytes.length := by
  unfold decodeLength? at h
  split at h
  · cases h
  · dsimp only at h
    simp only [List.length_cons]
    split at h
    · cases h
      exact Nat.le_refl _
    · split at h
      · obtain ⟨_, hread, _⟩ := Bytes.mapRead_eq_some.1 h
        have := Bytes.readUInt8?_length hread
        omega
      · split at h
        · obtain ⟨_, hread, _⟩ := Bytes.mapRead_eq_some.1 h
          have := Bytes.readUInt16?_length hread
          omega
        · cases h

/-- A group takes at least three bytes more than its body. -/
theorem decodeGroup?_length {data : Bytes} {group : DecodedGroup}
    (h : decodeGroup? data = some group) :
    group.body.length + group.rest.length + 3 ≤ data.length := by
  unfold decodeGroup? at h
  split at h
  · cases h
  · next hnumber =>
    split at h
    · cases h
    · next hlength =>
      split at h
      · cases h
      · next htake =>
        cases h
        have h1 := Bytes.readUInt16?_length hnumber
        have h2 := decodeLength?_length hlength
        have h3 := Bytes.take?_length htake
        have h4 := Bytes.take?_taken_length htake
        simp only
        omega

theorem decodeContent?_length {code : UInt16} {bytes rest : Bytes} {content : Content}
    (h : decodeContent? code bytes = some (content, rest)) : rest.length ≤ bytes.length := by
  unfold decodeContent? at h
  split at h
  · split at h
    · split at h
      · cases h
      · next hstored =>
        obtain ⟨_, hread, _⟩ := Bytes.mapRead_eq_some.1 h
        have h1 := Bytes.readUInt32?_length hstored
        have h2 := Bytes.take?_length hread
        omega
    · obtain ⟨_, hread, _⟩ := Bytes.mapRead_eq_some.1 h
      have := Bytes.take?_length hread
      omega
  · split at h
    · cases h
      exact Nat.le_refl _
    · split at h
      · obtain ⟨_, hread, _⟩ := Bytes.mapRead_eq_some.1 h
        have := Bytes.readUInt8?_length hread
        omega
      · split at h
        · obtain ⟨_, hread, _⟩ := Bytes.mapRead_eq_some.1 h
          have := Bytes.readUInt16?_length hread
          omega
        · obtain ⟨_, hread, _⟩ := Bytes.mapRead_eq_some.1 h
          have := Bytes.readUInt32?_length hread
          omega

/-- An entry takes at least the two bytes of its header. -/
theorem decodeMember?_length {body : Bytes} {entry : DecodedEntry}
    (h : decodeMember? body = some entry) : entry.rest.length + 2 ≤ body.length := by
  unfold decodeMember? at h
  split at h
  · cases h
  · next hheader =>
    split at h
    · cases h
    · next hcontent =>
      cases h
      have h1 := Bytes.readUInt16?_length hheader
      have h2 := decodeContent?_length hcontent
      simp only
      omega

theorem decodeValue?_length {code : UInt16} {bytes rest : Bytes} {value : Int32}
    (h : decodeValue? code bytes = some (value, rest)) : rest.length ≤ bytes.length := by
  unfold decodeValue? at h
  split at h
  · cases h
    exact Nat.le_refl _
  · split at h
    · obtain ⟨_, hread, _⟩ := Bytes.mapRead_eq_some.1 h
      have := Bytes.readUInt8?_length hread
      omega
    · split at h
      · obtain ⟨_, hread, _⟩ := Bytes.mapRead_eq_some.1 h
        have := Bytes.readUInt16?_length hread
        omega
      · obtain ⟨_, hread, _⟩ := Bytes.mapRead_eq_some.1 h
        have := Bytes.readUInt32?_length hread
        omega

/-- An occurrence takes at least the two bytes of its position. -/
theorem decodeOccurrence?_length {list rest : Bytes} {occurrence : Occurrence}
    (h : decodeOccurrence? list = some (occurrence, rest)) : rest.length < list.length := by
  unfold decodeOccurrence? at h
  split at h
  · cases h
  · next hword =>
    obtain ⟨_, hread, _⟩ := Bytes.mapRead_eq_some.1 h
    have h1 := Bytes.readUInt16?_length hword
    have h2 := decodeValue?_length hread
    omega

/-! ## Lists -/

/-- The occurrences of a list, `none` if it ends inside one. -/
def decodeList? (list : Bytes) : Option (List Occurrence) :=
  if list.isEmpty then some []
  else
    match _h : decodeOccurrence? list with
    | none => none
    | some (occurrence, rest) => (decodeList? rest).map (occurrence :: ·)
termination_by list.length
decreasing_by exact decodeOccurrence?_length _h

/-- The occurrences of an entry's list; a bare value has none. -/
def Content.occurrences? : Content → Option (List Occurrence)
  | .value _ => some []
  | .list bytes => decodeList? bytes

/-- The bare value of an entry; a list counts as `0`. -/
def Content.bareValue : Content → Int32
  | .value v => v
  | .list _ => 0

end TermData
end InvertedIndex
