import InvertedIndex.Bytes

/-!
# `InvertedIndex.Postings.Entry` — entries of a block

A block holds the entries of one group, ascending by member number, one behind the other. An entry
is

    u16      member number times 16, plus the length code
    …        the length, if the code is 7
    …        the payload

where a code below 7 is the length of the payload itself. After the code 7 stands the length in one
byte if it fits and is at least 2; the byte 0 announces a length of two bytes, the byte 1 one of
four.

## Contents
- `Entry`, `Entry.encodedSize`, `Entry.encode`;
- `Entry.Head`, `Entry.readHead?`: what stands in front of a payload;
- `Entry.decode?`: an entry off the front; `Entry.decode?_length`: it takes at least two bytes;
- `Entry.encodeAll`, `Entry.decodeAll`: whole blocks.
-/

namespace InvertedIndex

/-- The longest payload that a group keeps without a block. -/
def inlineCapacity : Nat := 6

/-- The payload of one member of a group. -/
structure Entry where
  member : UInt16
  payload : Bytes
  deriving Repr, DecidableEq

namespace Entry

/-- The least payload length that is written out behind the header. -/
def extendedLength : Nat := 7

/-- The bytes that give the length of an extended payload. -/
def lengthBytes (length : Nat) : Bytes :=
  if length ≤ 0xFF then [length.toUInt8]
  else if length ≤ 0xFFFF then 0 :: Bytes.ofUInt16 length.toUInt16
  else 1 :: Bytes.ofUInt32 length.toUInt32

/-- How many bytes an entry with a payload of so many bytes occupies. -/
def encodedSize (length : Nat) : Nat :=
  let lengthSize :=
    if length < extendedLength then 0
    else if length ≤ 0xFF then 1
    else if length ≤ 0xFFFF then 3
    else 5
  2 + lengthSize + length

/-- The bytes of an entry. -/
def encode (entry : Entry) : Bytes :=
  let length := entry.payload.length
  if length < extendedLength then
    Bytes.ofUInt16 ((entry.member <<< 4) ||| length.toUInt16) ++ entry.payload
  else
    Bytes.ofUInt16 ((entry.member <<< 4) ||| 7) ++ lengthBytes length ++ entry.payload

/-- The bytes of several entries. -/
def encodeAll (entries : List Entry) : Bytes := entries.flatMap encode

/-- The payload length behind a header with the given length code. -/
def readLength? (code : UInt16) (bytes : Bytes) : Option (Nat × Bytes) :=
  if code < 7 then some (code.toNat, bytes)
  else
    match bytes with
    | [] => none
    | marker :: rest =>
      if marker = 0 then Bytes.mapRead UInt16.toNat (Bytes.readUInt16? rest)
      else if marker = 1 then Bytes.mapRead UInt32.toNat (Bytes.readUInt32? rest)
      else some (marker.toNat, rest)

/-- What stands in front of the payload of an entry. -/
structure Head where
  member : UInt16
  /-- The length of the payload. -/
  length : Nat
  deriving Repr, DecidableEq

/-- The head of an entry off the front. -/
def readHead? (bytes : Bytes) : Option (Head × Bytes) :=
  match Bytes.readUInt16? bytes with
  | none => none
  | some (header, rest) =>
    Bytes.mapRead (fun length => ⟨header >>> 4, length⟩) (readLength? (header &&& 0xF) rest)

/-- An entry off the front, `none` if no whole one stands there. -/
def decode? (bytes : Bytes) : Option (Entry × Bytes) :=
  match readHead? bytes with
  | none => none
  | some (head, rest) =>
    Bytes.mapRead (fun payload => ⟨head.member, payload⟩) (Bytes.take? head.length rest)

theorem readLength?_length {code : UInt16} {bytes rest : Bytes} {n : Nat}
    (h : readLength? code bytes = some (n, rest)) : rest.length ≤ bytes.length := by
  unfold readLength? at h
  split at h
  · cases h
    exact Nat.le_refl _
  · split at h
    · cases h
    · split at h
      · obtain ⟨_, hread, _⟩ := Bytes.mapRead_eq_some.1 h
        have := Bytes.readUInt16?_length hread
        simp only [List.length_cons]
        omega
      · split at h
        · obtain ⟨_, hread, _⟩ := Bytes.mapRead_eq_some.1 h
          have := Bytes.readUInt32?_length hread
          simp only [List.length_cons]
          omega
        · cases h
          simp only [List.length_cons]
          omega

/-- A head takes at least the two bytes of its header. -/
theorem readHead?_length {bytes rest : Bytes} {head : Head}
    (h : readHead? bytes = some (head, rest)) : rest.length + 2 ≤ bytes.length := by
  unfold readHead? at h
  split at h
  · cases h
  · next hheader =>
    obtain ⟨_, hlength, _⟩ := Bytes.mapRead_eq_some.1 h
    have h1 := Bytes.readUInt16?_length hheader
    have h2 := readLength?_length hlength
    omega

/-- An entry takes at least the two bytes of its header. -/
theorem decode?_length {bytes rest : Bytes} {entry : Entry}
    (h : decode? bytes = some (entry, rest)) : rest.length + 2 ≤ bytes.length := by
  unfold decode? at h
  split at h
  · cases h
  · next hhead =>
    obtain ⟨_, htake, _⟩ := Bytes.mapRead_eq_some.1 h
    have h1 := readHead?_length hhead
    have h2 := Bytes.take?_length htake
    omega

/-- The entries of a block, up to the first place where no whole entry stands. -/
def decodeAll (bytes : Bytes) : List Entry :=
  match _h : decode? bytes with
  | none => []
  | some (entry, rest) => entry :: decodeAll rest
termination_by bytes.length
decreasing_by
  have := decode?_length _h
  omega

end Entry
end InvertedIndex
