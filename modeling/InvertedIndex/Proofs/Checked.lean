import InvertedIndex.Bytes
import InvertedIndex.Proofs.Outcome
import Mathlib.Algebra.Group.Nat.Defs

/-!
# `Proofs.Checked` — computations that may trap

Stored forms are read in place: a reader is given all the bytes and the place where to start, and
says where it stopped. Places are 64-bit sizes. A sum that is no such size, or a slice that does not
lie within its bytes, would stop the program, so here each of them is a computation that may
**trap**. A reader by offsets reads the same as the reader that takes a value off the front of the
bytes from the place on.

## Contents
- `Trap`, `Checked`: computations that may trap; `add`, `slice`, and `add?`, `slice?`, which do not;
- `bind_eq_some`: one reader behind another;
- `Finds`: a computation finds what another reader finds; `Addressable`: bytes that memory can hold;
- `readUInt16At`, `readUInt32At`, `readUInt64At`: integers, each with a lemma that ends in `_spec`;
- `Extent`: where some bytes lie among others; `take?_drop`: a number of bytes from a place on.
-/

namespace InvertedIndex

/-! ## Computations that may trap -/

/-- What stops the program. -/
inductive Trap where
  /-- The slice does not lie within its bytes, or it cuts a character. -/
  | slice (start stop : Nat)
  /-- The sum is no 64-bit size. -/
  | sum (a b : Nat)
  deriving Repr, DecidableEq

/-- A computation that may trap. -/
abbrev Checked := Except Trap

namespace Checked

/-- How many sizes there are. -/
def sizeLimit : Nat := 2 ^ 64

/-- A sum of sizes. -/
def add (a b : Nat) : Checked Nat := if a + b < sizeLimit then .ok (a + b) else .error (.sum a b)

/-- A sum of sizes, `none` if it is not a size. -/
def add? (a b : Nat) : Option Nat := if a + b < sizeLimit then some (a + b) else none

/-- A product of sizes, `none` if it is not a size. -/
def mul? (a b : Nat) : Option Nat := if a * b < sizeLimit then some (a * b) else none

/-- A difference of sizes, `none` if it is negative. -/
def sub? (a b : Nat) : Option Nat := if b ≤ a then some (a - b) else none

variable {α : Type}

/-- The items from one place up to another, `none` if these do not lie within the list. -/
def slice? (items : List α) (start stop : Nat) : Option (List α) :=
  if start ≤ stop ∧ stop ≤ items.length then some ((items.take stop).drop start) else none

/-- The items from one place up to another. -/
def slice (items : List α) (start stop : Nat) : Checked (List α) :=
  match slice? items start stop with
  | some part => .ok part
  | none => .error (.slice start stop)

theorem add_eq {a b : Nat} (h : a + b < sizeLimit) : add a b = .ok (a + b) := if_pos h

theorem add_eq_ok {a b c : Nat} (h : add a b = .ok c) : a + b = c := by
  unfold add at h
  split at h
  · exact Except.ok.inj h
  · cases h

theorem add?_eq {a b : Nat} (h : a + b < sizeLimit) : add? a b = some (a + b) := if_pos h

theorem add?_eq_some {a b c : Nat} (h : add? a b = some c) : a + b = c := by
  unfold add? at h
  split at h
  · exact Option.some.inj h
  · cases h

theorem mul?_eq {a b : Nat} (h : a * b < sizeLimit) : mul? a b = some (a * b) := if_pos h

theorem sub?_eq {a b : Nat} (h : b ≤ a) : sub? a b = some (a - b) := if_pos h

theorem sub?_eq_none {a b : Nat} (h : a < b) : sub? a b = none := if_neg (Nat.not_le.2 h)

theorem slice?_eq {items : List α} {start stop : Nat} (h : start ≤ stop)
    (hstop : stop ≤ items.length) :
    slice? items start stop = some ((items.take stop).drop start) := if_pos ⟨h, hstop⟩

theorem slice_eq {items : List α} {start stop : Nat} (h : start ≤ stop)
    (hstop : stop ≤ items.length) :
    slice items start stop = .ok ((items.take stop).drop start) := by
  rw [slice, slice?_eq h hstop]

/-- A reader behind another that finds something goes on from what that one found. -/
theorem bind_eq_some {β : Type} {first : Checked (Option α)} {next : Option α → Checked (Option β)}
    {value : β} (h : first >>= next = .ok (some value)) (hnone : next none = .ok none) :
    ∃ found, first = .ok (some found) ∧ next (some found) = .ok (some value) := by
  obtain ⟨found?, hfirst, hnext⟩ := bind_eq_ok.1 h
  cases found? with
  | none =>
    rw [hnone] at hnext
    cases hnext
  | some found => exact ⟨found, hfirst, hnext⟩

/-- The computation does not trap and finds what is read, as `view` shows it. What it finds fits. -/
abbrev Finds {α β : Type} (computed : Checked (Option α)) (read : Option β) (view : α → β)
    (fits : α → Prop) : Prop :=
  ∃ found?, computed = .ok found? ∧ read = found?.map view ∧ ∀ found ∈ found?, fits found

section Finds

variable {α β : Type} {computed : Checked (Option α)} {read : Option β} {view : α → β}
  {fits : α → Prop} {value : α}

theorem Finds.nothing (hcomputed : computed = .ok none) (hread : read = none) :
    Finds computed read view fits := ⟨none, hcomputed, hread, nofun⟩

theorem Finds.found (hcomputed : computed = .ok (some value)) (hread : read = some (view value))
    (h : fits value) : Finds computed read view fits := by
  refine ⟨some value, hcomputed, hread, ?_⟩
  rintro found ⟨⟩
  exact h

theorem Finds.ne_error (h : Finds computed read view fits) {trap : Trap} :
    computed ≠ .error trap := by
  rintro rfl
  obtain ⟨found?, hfound, -⟩ := h
  cases hfound

theorem Finds.eq_none (h : Finds computed read view fits) (hnone : computed = .ok none) :
    read = none := by
  obtain ⟨found?, hfound, hread, -⟩ := h
  cases hnone.symm.trans hfound
  exact hread

theorem Finds.eq_some (h : Finds computed read view fits) (hsome : computed = .ok (some value)) :
    read = some (view value) ∧ fits value := by
  obtain ⟨found?, hfound, hread, hfits⟩ := h
  cases hsome.symm.trans hfound
  exact ⟨hread, hfits value rfl⟩

theorem Finds.ok_none (h : Finds computed read view fits) (hnone : read = none) :
    computed = .ok none := by
  obtain ⟨found?, hfound, hread, -⟩ := h
  rw [hnone] at hread
  rw [hfound, Option.map_eq_none_iff.1 hread.symm]

theorem Finds.ok_some {shown : β} (h : Finds computed read view fits) (hsome : read = some shown) :
    ∃ value, computed = .ok (some value) ∧ view value = shown ∧ fits value := by
  obtain ⟨found?, hfound, hread, hfits⟩ := h
  rw [hsome] at hread
  obtain ⟨value, rfl, hvalue⟩ := Option.map_eq_some_iff.1 hread.symm
  exact ⟨value, hfound, hvalue, hfits value rfl⟩

end Finds

end Checked

open Checked

/-- Bytes that memory can hold. No object has more than half as many bytes as there are sizes. -/
def Addressable (bytes : Bytes) : Prop := bytes.length < 2 ^ 63

instance (bytes : Bytes) : Decidable (Addressable bytes) := Nat.decLt bytes.length (2 ^ 63)

theorem Addressable.add_lt {bytes : Bytes} (h : Addressable bytes) {place more : Nat}
    (hplace : place ≤ bytes.length) (hmore : more < 2 ^ 63) : place + more < sizeLimit := by
  unfold Addressable at h
  unfold sizeLimit
  omega

/-! ## Integers -/

/-- A value of so many bytes at a place, `none` if the bytes end before that. -/
def readAt {α : Type} (width : Nat) (read : Bytes → Option (α × Bytes)) (bytes : Bytes)
    (place : Nat) : Checked (Option α) := do
  let stop ← add place width
  return (slice? bytes place stop).bind fun part => (read part).map Prod.fst

def readUInt16At (bytes : Bytes) (place : Nat) : Checked (Option UInt16) :=
  readAt 2 Bytes.readUInt16? bytes place

def readUInt32At (bytes : Bytes) (place : Nat) : Checked (Option UInt32) :=
  readAt 4 Bytes.readUInt32? bytes place

def readUInt64At (bytes : Bytes) (place : Nat) : Checked (Option UInt64) :=
  readAt 8 Bytes.readUInt64? bytes place

/-- The reader takes so many bytes and looks at no others. -/
structure FixedWidth {α : Type} (width : Nat) (read : Bytes → Option (α × Bytes)) : Prop where
  pos : 0 < width
  short : ∀ bytes : Bytes, bytes.length < width → read bytes = none
  long : ∀ bytes : Bytes, width ≤ bytes.length →
    ∃ value, read (bytes.take width) = some (value, []) ∧
      read bytes = some (value, bytes.drop width)

theorem readUInt16?_fixed : FixedWidth 2 Bytes.readUInt16? := by
  refine ⟨by decide, ?_, ?_⟩
  · intro bytes h
    match bytes with
    | [] | [_] => rfl
    | _ :: _ :: rest => exact absurd h (Nat.not_lt.2 (Nat.le_add_left 2 rest.length))
  · intro bytes h
    match bytes with
    | [] | [_] => simp at h
    | a :: b :: rest => exact ⟨_, rfl, rfl⟩

theorem readUInt32?_fixed : FixedWidth 4 Bytes.readUInt32? := by
  refine ⟨by decide, ?_, ?_⟩
  · intro bytes h
    match bytes with
    | [] | [_] | [_, _] | [_, _, _] => rfl
    | _ :: _ :: _ :: _ :: rest => exact absurd h (Nat.not_lt.2 (Nat.le_add_left 4 rest.length))
  · intro bytes h
    match bytes with
    | [] | [_] | [_, _] | [_, _, _] => simp at h
    | a :: b :: c :: d :: rest => exact ⟨_, rfl, rfl⟩

theorem readUInt64?_fixed : FixedWidth 8 Bytes.readUInt64? := by
  refine ⟨by decide, ?_, ?_⟩
  · intro bytes h
    match bytes with
    | [] | [_] | [_, _] | [_, _, _] | [_, _, _, _] | [_, _, _, _, _] | [_, _, _, _, _, _]
    | [_, _, _, _, _, _, _] => rfl
    | _ :: _ :: _ :: _ :: _ :: _ :: _ :: _ :: rest =>
      exact absurd h (Nat.not_lt.2 (Nat.le_add_left 8 rest.length))
  · intro bytes h
    match bytes with
    | [] | [_] | [_, _] | [_, _, _] | [_, _, _, _] | [_, _, _, _, _] | [_, _, _, _, _, _]
    | [_, _, _, _, _, _, _] => simp at h
    | a :: b :: c :: d :: e :: f :: g :: i :: rest => exact ⟨_, rfl, rfl⟩

section Reading

variable {α : Type} {width : Nat} {read : Bytes → Option (α × Bytes)} {bytes : Bytes} {place : Nat}

/-- A value at a place is what stands at the front of the bytes from there on. -/
theorem readAt_spec (h : FixedWidth width read) (hplace : place + width < sizeLimit) :
    Finds (readAt width read bytes place) (read (bytes.drop place))
      (fun value => (value, bytes.drop (place + width))) fun _ => place + width ≤ bytes.length := by
  unfold readAt
  rw [add_eq hplace]
  by_cases hlong : place + width ≤ bytes.length
  · obtain ⟨value, htaken, hread⟩ := h.long (bytes.drop place) (by rw [List.length_drop]; omega)
    refine ⟨some value, ?_, ?_, fun _ _ => hlong⟩
    · show Except.ok ((slice? bytes place (place + width)).bind _) = _
      rw [slice?_eq (Nat.le_add_right _ _) hlong, List.drop_take, Nat.add_sub_cancel_left,
        Option.bind_some, htaken]
      rfl
    · rw [hread, List.drop_drop]
      rfl
  · have hpos := h.pos
    refine ⟨none, ?_, ?_, nofun⟩
    · show Except.ok ((slice? bytes place (place + width)).bind _) = _
      rw [slice?, if_neg fun h => hlong h.2]
      rfl
    · exact h.short _ (by rw [List.length_drop]; omega)

theorem readUInt16At_spec (bytes : Bytes) (place : Nat) (hplace : place + 2 < sizeLimit) :
    Finds (readUInt16At bytes place) (Bytes.readUInt16? (bytes.drop place))
      (fun value => (value, bytes.drop (place + 2))) fun _ => place + 2 ≤ bytes.length :=
  readAt_spec readUInt16?_fixed hplace

theorem readUInt32At_spec (bytes : Bytes) (place : Nat) (hplace : place + 4 < sizeLimit) :
    Finds (readUInt32At bytes place) (Bytes.readUInt32? (bytes.drop place))
      (fun value => (value, bytes.drop (place + 4))) fun _ => place + 4 ≤ bytes.length :=
  readAt_spec readUInt32?_fixed hplace

theorem readUInt64At_spec (bytes : Bytes) (place : Nat) (hplace : place + 8 < sizeLimit) :
    Finds (readUInt64At bytes place) (Bytes.readUInt64? (bytes.drop place))
      (fun value => (value, bytes.drop (place + 8))) fun _ => place + 8 ≤ bytes.length :=
  readAt_spec readUInt64?_fixed hplace

/-- A byte at a place is the first of those from there on. -/
theorem readUInt8?_drop (bytes : Bytes) (place : Nat) : Bytes.readUInt8? (bytes.drop place)
    = bytes[place]?.map (fun value => (value, bytes.drop (place + 1))) := by
  cases hbyte : bytes[place]? with
  | none =>
    rw [List.drop_eq_nil_of_le (List.getElem?_eq_none_iff.1 hbyte)]
    rfl
  | some value =>
    obtain ⟨hlt, rfl⟩ := List.getElem?_eq_some_iff.1 hbyte
    rw [List.drop_eq_getElem_cons hlt]
    rfl

end Reading

/-! ## Extents -/

/-- Where some bytes lie among others. -/
structure Extent where
  start : Nat
  stop : Nat
  deriving Repr, DecidableEq

namespace Extent

/-- The bytes that lie there. -/
def of (extent : Extent) (bytes : Bytes) : Bytes := (bytes.take extent.stop).drop extent.start

/-- Cuts them out. -/
def cut (extent : Extent) (bytes : Bytes) : Checked Bytes := slice bytes extent.start extent.stop

/-- They lie among the others. -/
structure Within (extent : Extent) (bytes : Bytes) : Prop where
  start : extent.start ≤ extent.stop
  stop : extent.stop ≤ bytes.length

variable {extent : Extent} {bytes : Bytes}

theorem Within.cut_eq (h : extent.Within bytes) : extent.cut bytes = .ok (extent.of bytes) :=
  slice_eq h.start h.stop

theorem of_length_le (extent : Extent) (bytes : Bytes) :
    (extent.of bytes).length ≤ bytes.length := by
  rw [of, List.length_drop, List.length_take]
  omega

end Extent

theorem Addressable.of {bytes : Bytes} (h : Addressable bytes) (extent : Extent) :
    Addressable (extent.of bytes) := Nat.lt_of_le_of_lt (extent.of_length_le bytes) h

/-- The front of some bytes is there if there are enough of them. -/
theorem take?_drop (data : Bytes) (start length : Nat) (hstart : start ≤ data.length) :
    Bytes.take? length (data.drop start) = if start + length ≤ data.length
      then some ((data.take (start + length)).drop start, data.drop (start + length))
      else none := by
  rw [Bytes.take?, List.splitAt_eq, List.drop_take, Nat.add_sub_cancel_left, List.drop_drop]
  simp only [List.length_take, List.length_drop]
  split
  · rw [if_pos (by omega)]
  · rw [if_neg (by omega)]

end InvertedIndex
