import InvertedIndex.Proofs.Bytes
import InvertedIndex.Proofs.Checked
import Mathlib.Data.String.Basic

/-!
# `Proofs.Query.Boundaries` — places in a text, counted in bytes

A text is held as the bytes of its characters, and a place in it is a number of bytes. From a place
at which no character is cut, certain characters are left; the bytes there are theirs, and what lies
between two such places is a text again. A slice that is taken anywhere else stops the program.

## Contents
- `byteAt`, `Boundary`: the byte at a place, and the places at which no character is cut;
- `Extent.text?`, `Extent.cutText`: a slice of a text, sought and taken;
- `Stands`: what is left of a text from a place on;
- `Stands.firstByte`, `Stands.byteAt_add`: the bytes at a place and inside a character;
- `Stands.text?_eq`, `Stands.cutText_eq`: the slice between two places.
-/

namespace InvertedIndex

open Checked String

/-- The byte at a place. -/
def byteAt (text : String) (place : Nat) : Option UInt8 := (textBytes text)[place]?

/-- No character is cut at the place. -/
def Boundary (text : String) (place : Nat) : Prop := (⟨place⟩ : Pos.Raw).IsValid text

instance (text : String) (place : Nat) : Decidable (Boundary text place) :=
  inferInstanceAs (Decidable ((⟨place⟩ : Pos.Raw).IsValid text))

namespace Extent

/-- The text that lies there, `none` if it does not lie within the text or a character is cut. -/
def text? (extent : Extent) (text : String) : Option String :=
  if extent.start ≤ extent.stop ∧ Boundary text extent.start ∧ Boundary text extent.stop then
    some (Pos.Raw.extract text ⟨extent.start⟩ ⟨extent.stop⟩)
  else none

/-- Cuts it out. -/
def cutText (extent : Extent) (text : String) : Checked String :=
  match extent.text? text with
  | some part => .ok part
  | none => .error (.slice extent.start extent.stop)

end Extent

/-! ## What is left from a place on -/

/-- From the place on, the characters are left of the text. -/
def Stands (text : String) (place : Nat) (input : List Char) : Prop :=
  ∃ front, text.toList = front ++ input ∧ place = utf8Len front

variable {text : String} {place : Nat} {input part rest : List Char} {c : Char}

theorem byteAt_lt {byte : UInt8} (h : byteAt text place = some byte) :
    place < (textBytes text).length := (List.getElem?_eq_some_iff.1 h).1

theorem flatMap_utf8EncodeChar_length (cs : List Char) :
    (cs.flatMap utf8EncodeChar).length = utf8Len cs := by
  induction cs with
  | nil => rfl
  | cons c cs ih =>
    rw [List.flatMap_cons, List.length_append, length_utf8EncodeChar, ih, utf8Len_cons,
      Nat.add_comm]

theorem textBytes_length (text : String) : (textBytes text).length = utf8Len text.toList := by
  rw [textBytes_eq_flatMap, flatMap_utf8EncodeChar_length]

namespace Stands

theorem zero (text : String) : Stands text 0 text.toList := ⟨[], rfl, rfl⟩

theorem append (h : Stands text place (part ++ rest)) :
    Stands text (place + utf8Len part) rest := by
  obtain ⟨front, htext, rfl⟩ := h
  exact ⟨front ++ part, by rw [htext, List.append_assoc], (utf8Len_append _ _).symm⟩

theorem next (h : Stands text place (c :: rest)) : Stands text (place + c.utf8Size) rest := by
  have hpart : Stands text (place + utf8Len [c]) rest := append h
  rwa [utf8Len_cons, utf8Len_nil, Nat.zero_add] at hpart

theorem next_ascii (h : Stands text place (c :: rest)) (hascii : c.toNat < 0x80) :
    Stands text (place + 1) rest := by
  have hnext := h.next
  rwa [(utf8EncodeChar_ascii hascii).1] at hnext

/-- A place is told by what is left. -/
theorem add_utf8Len (h : Stands text place input) :
    place + utf8Len input = (textBytes text).length := by
  obtain ⟨front, htext, rfl⟩ := h
  rw [textBytes_length, htext, utf8Len_append]

theorem le (h : Stands text place input) : place ≤ (textBytes text).length :=
  Nat.le.intro h.add_utf8Len

theorem eq_length (h : Stands text place []) : place = (textBytes text).length := h.add_utf8Len

theorem lt (h : Stands text place (c :: rest)) : place < (textBytes text).length := by
  have hsize := h.add_utf8Len
  have hpos := c.utf8Size_pos
  rw [utf8Len_cons] at hsize
  omega

/-! ## Bytes -/

/-- The bytes from the place on are those of the characters that are left. -/
theorem getElem? (h : Stands text place input) (offset : Nat) :
    byteAt text (place + offset) = (input.flatMap utf8EncodeChar)[offset]? := by
  obtain ⟨front, htext, rfl⟩ := h
  rw [byteAt, textBytes_eq_flatMap, htext, List.flatMap_append, List.getElem?_append_right,
    flatMap_utf8EncodeChar_length, Nat.add_sub_cancel_left]
  rw [flatMap_utf8EncodeChar_length]
  exact Nat.le_add_right _ _

theorem byteAt_nil (h : Stands text place []) : byteAt text place = none := h.getElem? 0

/-- The first byte of a character of ASCII is its number. -/
theorem byteAt_ascii (h : Stands text place (c :: rest)) (hascii : c.toNat < 0x80) :
    byteAt text place = some c.toUInt8 := by
  have hbytes := h.getElem? 0
  rwa [List.flatMap_cons, (utf8EncodeChar_ascii hascii).2] at hbytes

/-- A byte of any other character is not one of ASCII. -/
theorem byteAt_add (h : Stands text place (c :: rest)) (hwide : 0x80 ≤ c.toNat) (offset : Nat)
    (hoffset : offset < c.utf8Size) :
    ∃ byte, byteAt text (place + offset) = some byte ∧ 0x80 ≤ byte.toNat := by
  have hbytes := h.getElem? offset
  have hlength : offset < (utf8EncodeChar c).length := by rwa [length_utf8EncodeChar]
  rw [List.flatMap_cons, List.getElem?_append_left hlength, List.getElem?_eq_getElem hlength]
    at hbytes
  exact ⟨_, hbytes, (utf8EncodeChar_wide hwide).2 _ (List.getElem_mem hlength)⟩

theorem byteAt_wide (h : Stands text place (c :: rest)) (hwide : 0x80 ≤ c.toNat) :
    ∃ byte, byteAt text place = some byte ∧ 0x80 ≤ byte.toNat :=
  h.byteAt_add hwide 0 c.utf8Size_pos

/-- The first byte of a character tells whether it is a given one of ASCII. -/
theorem firstByte (h : Stands text place (c :: rest)) :
    ∃ byte, byteAt text place = some byte ∧
      ∀ {mark : Char}, mark.toNat < 0x80 → (byte = mark.toUInt8 ↔ c = mark) := by
  rcases Nat.lt_or_ge c.toNat 0x80 with hascii | hwide
  · exact ⟨_, h.byteAt_ascii hascii, toUInt8_inj hascii⟩
  · obtain ⟨byte, hbyte, hlarge⟩ := h.byteAt_wide hwide
    exact ⟨byte, hbyte, fun hmark => iff_of_false (ne_of_wide hlarge hmark) (wide_ne hwide hmark)⟩

/-- At a place stands the byte of a character of ASCII if the character is left there. -/
theorem byteAt_iff (h : Stands text place input) {mark : Char} (hmark : mark.toNat < 0x80) :
    byteAt text place = some mark.toUInt8 ↔ ∃ rest, input = mark :: rest := by
  cases input with
  | nil => simp [h.byteAt_nil]
  | cons c rest =>
    obtain ⟨byte, hbyte, hfirst⟩ := h.firstByte
    rw [hbyte, Option.some_inj, hfirst hmark]
    simp

/-! ## Slices -/

theorem boundary (h : Stands text place input) : Boundary text place := by
  obtain ⟨front, htext, rfl⟩ := h
  refine Pos.Raw.isValid_iff_exists_take_toList.2 ⟨front.length, ?_⟩
  rw [htext, List.take_left, utf8ByteSize_ofList]

/-- Inside a character there is no boundary. -/
theorem not_boundary (h : Stands text place (c :: rest)) {offset : Nat} (hpos : 0 < offset)
    (hoffset : offset < c.utf8Size) : ¬ Boundary text (place + offset) := by
  obtain ⟨front, htext, rfl⟩ := h
  intro hvalid
  obtain ⟨count, hcount⟩ := Pos.Raw.isValid_iff_exists_take_toList.1 hvalid
  rw [htext, utf8ByteSize_ofList] at hcount
  -- A front of the text ends before the character or holds all of it.
  rcases Nat.lt_or_ge front.length count with hlong | hshort
  · have hwhole : front ++ [c] <+: (front ++ c :: rest).take count := by
      refine List.prefix_take_iff.2 ⟨⟨rest, by simp⟩, ?_⟩
      rw [List.length_append]
      exact hlong
    have hle := utf8Len_le_of_prefix hwhole
    simp only [utf8Len_append, utf8Len_cons, utf8Len_nil] at hle
    dsimp only at hcount
    omega
  · have hle := utf8Len_le_of_prefix (List.take_prefix count front)
    rw [List.take_append_of_le_length hshort] at hcount
    dsimp only at hcount
    omega

/-- Between two places of a text lie the characters that are left at one and not at the other. -/
theorem text?_eq (h : Stands text place (part ++ rest)) :
    Extent.text? ⟨place, place + utf8Len part⟩ text = some (ofList part) := by
  have hstart := h.boundary
  have hstop := h.append.boundary
  obtain ⟨front, htext, rfl⟩ := h
  rw [Extent.text?, if_pos ⟨Nat.le_add_right _ _, hstart, hstop⟩]
  have hwhole : text = ofList (front ++ part ++ rest) := by
    rw [List.append_assoc, ← htext, ofList_toList]
  subst hwhole
  rw [extract_of_valid]

theorem cutText_eq (h : Stands text place (part ++ rest)) :
    Extent.cutText ⟨place, place + utf8Len part⟩ text = .ok (ofList part) := by
  rw [Extent.cutText, h.text?_eq]

end Stands

/-- A slice that starts inside a character is not there. -/
theorem Extent.text?_eq_none {extent : Extent} (h : ¬ Boundary text extent.start) :
    extent.text? text = none := if_neg fun hwhole => h hwhole.2.1

end InvertedIndex
