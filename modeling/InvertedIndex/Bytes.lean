/-!
# `InvertedIndex.Bytes` — little-endian integers in byte lists

Every stored form in this library is a list of bytes. A reader takes an integer off the front of a
list and returns it with the rest, or `none` when the list ends inside the integer.

## Contents
- `textBytes`: the bytes of a text;
- `Bytes.ofUInt16`, `Bytes.ofUInt32`, `Bytes.ofUInt64`: the bytes of an integer, lowest first;
- `Bytes.readUInt16?`, `Bytes.readUInt32?`, `Bytes.readUInt64?`: an integer off the front;
- `Bytes.take?`: a given number of bytes off the front;
- `Bytes.mapRead`: a reader's value changed;
- the `…_length` lemmas: how much shorter the rest is.
-/

namespace InvertedIndex

/-- A run of bytes. -/
abbrev Bytes := List UInt8

/-- The bytes of a text. -/
def textBytes (text : String) : Bytes := text.toUTF8.data.toList

namespace Bytes

/-! ## Writing -/

/-- The two bytes of a 16-bit integer, lowest first. -/
def ofUInt16 (n : UInt16) : Bytes := [n.toUInt8, (n >>> 8).toUInt8]

/-- The four bytes of a 32-bit integer, lowest first. -/
def ofUInt32 (n : UInt32) : Bytes :=
  [n.toUInt8, (n >>> 8).toUInt8, (n >>> 16).toUInt8, (n >>> 24).toUInt8]

/-- The eight bytes of a 64-bit integer, lowest first. -/
def ofUInt64 (n : UInt64) : Bytes :=
  [n.toUInt8, (n >>> 8).toUInt8, (n >>> 16).toUInt8, (n >>> 24).toUInt8,
   (n >>> 32).toUInt8, (n >>> 40).toUInt8, (n >>> 48).toUInt8, (n >>> 56).toUInt8]

/-! ## Reading -/

/-- The 16-bit integer with the given bytes, lowest first. -/
def toUInt16 (a b : UInt8) : UInt16 := a.toUInt16 ||| (b.toUInt16 <<< 8)

/-- The 32-bit integer with the given bytes, lowest first. -/
def toUInt32 (a b c d : UInt8) : UInt32 :=
  a.toUInt32 ||| (b.toUInt32 <<< 8) ||| (c.toUInt32 <<< 16) ||| (d.toUInt32 <<< 24)

/-- A byte off the front. -/
def readUInt8? : Bytes → Option (UInt8 × Bytes)
  | a :: rest => some (a, rest)
  | [] => none

/-- A 16-bit integer off the front. -/
def readUInt16? : Bytes → Option (UInt16 × Bytes)
  | a :: b :: rest => some (toUInt16 a b, rest)
  | _ => none

/-- A 32-bit integer off the front. -/
def readUInt32? : Bytes → Option (UInt32 × Bytes)
  | a :: b :: c :: d :: rest => some (toUInt32 a b c d, rest)
  | _ => none

/-- The 64-bit integer with the given halves. -/
def toUInt64 (low high : UInt32) : UInt64 := low.toUInt64 ||| (high.toUInt64 <<< 32)

/-- A 64-bit integer off the front. -/
def readUInt64? : Bytes → Option (UInt64 × Bytes)
  | a :: b :: c :: d :: e :: f :: g :: h :: rest =>
    some (toUInt64 (toUInt32 a b c d) (toUInt32 e f g h), rest)
  | _ => none

/-- The first `count` bytes and the rest, `none` when there are fewer. -/
def take? (count : Nat) (bytes : Bytes) : Option (Bytes × Bytes) :=
  let (taken, rest) := bytes.splitAt count
  if taken.length = count then some (taken, rest) else none

/-- What a reader returned, with `f` applied to the value. -/
def mapRead {α β : Type} (f : α → β) : Option (α × Bytes) → Option (β × Bytes)
  | some (value, rest) => some (f value, rest)
  | none => none

theorem mapRead_eq_some {α β : Type} {f : α → β} {read : Option (α × Bytes)} {value : β}
    {rest : Bytes} :
    mapRead f read = some (value, rest) ↔ ∃ a, read = some (a, rest) ∧ f a = value := by
  cases read with
  | none => simp [mapRead]
  | some r =>
    obtain ⟨a, left⟩ := r
    simp only [mapRead, Option.some.injEq, Prod.mk.injEq]
    constructor
    · rintro ⟨hvalue, hrest⟩
      exact ⟨a, ⟨rfl, hrest⟩, hvalue⟩
    · rintro ⟨b, ⟨hb, hrest⟩, hvalue⟩
      exact ⟨hb ▸ hvalue, hrest⟩

/-! ## What a reader leaves -/

theorem readUInt8?_length {bytes rest : Bytes} {n : UInt8} (h : readUInt8? bytes = some (n, rest)) :
    bytes.length = rest.length + 1 := by
  unfold readUInt8? at h
  split at h
  · cases h
    rfl
  · cases h

theorem readUInt16?_length {bytes rest : Bytes} {n : UInt16}
    (h : readUInt16? bytes = some (n, rest)) : bytes.length = rest.length + 2 := by
  unfold readUInt16? at h
  split at h
  · cases h
    rfl
  · cases h

theorem readUInt32?_length {bytes rest : Bytes} {n : UInt32}
    (h : readUInt32? bytes = some (n, rest)) : bytes.length = rest.length + 4 := by
  unfold readUInt32? at h
  split at h
  · cases h
    rfl
  · cases h

theorem readUInt64?_length {bytes rest : Bytes} {n : UInt64}
    (h : readUInt64? bytes = some (n, rest)) : bytes.length = rest.length + 8 := by
  unfold readUInt64? at h
  split at h
  · cases h
    rfl
  · cases h

theorem take?_length {count : Nat} {bytes taken rest : Bytes}
    (h : take? count bytes = some (taken, rest)) : bytes.length = rest.length + count := by
  simp only [take?, List.splitAt_eq, List.length_take] at h
  split at h
  · cases h
    simp only [List.length_drop]
    omega
  · cases h

theorem take?_taken_length {count : Nat} {bytes taken rest : Bytes}
    (h : take? count bytes = some (taken, rest)) : taken.length = count := by
  simp only [take?, List.splitAt_eq, List.length_take] at h
  split at h
  · cases h
    simp only [List.length_take]
    omega
  · cases h

end Bytes
end InvertedIndex
