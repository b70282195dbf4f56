import InvertedIndex.Cursor.Basic
import InvertedIndex.Postings.Basic
import InvertedIndex.Settings
import InvertedIndex.Snapshot.Check
import InvertedIndex.Snapshot.Files
import InvertedIndex.Snapshot.Walk

/-!
# `InvertedIndex.Snapshot.Basic` — opening a snapshot

A snapshot is opened from the contents of its files. All that the index files say is checked against
the data files, and, if asked for, the postings of every term are; a file that fails a check is
reported.

## Contents
- `lowerBound`: the first place in an ascending array that is not below a key;
- `Slot`, `Snapshot`;
- `globalsFault?`, `readSlots`, `postingsFault?`: the checks; `Snapshot.open?`;
- `Snapshot.global?`, `termCount`, `terms`, `contains`, `longest?`: look-ups;
- `Snapshot.walk?` and the cursors over a term or over all terms with a stem.
-/

namespace InvertedIndex

/-! ## Search in an ascending array -/

/-- The first place from `low` on, before `high`, that is not `below`, or `high`; the places that
    are come first. -/
def lowerBoundIn {α : Type} (below : α → Bool) (items : Array α) (low high : Nat) : Nat :=
  if low < high then
    let middle := low + (high - low) / 2
    if items[middle]?.any below then lowerBoundIn below items (middle + 1) high
    else lowerBoundIn below items low middle
  else low
termination_by high - low
decreasing_by all_goals omega

/-- The first place that is not `below`, or the size of the array. -/
def lowerBound {α : Type} (below : α → Bool) (items : Array α) : Nat :=
  lowerBoundIn below items 0 items.size

/-! ## Snapshots -/

/-- A term of a snapshot. -/
structure Slot where
  term : String
  /-- Its postings. -/
  data : Bytes
  /-- The length of its longest list of positions. -/
  longest : UInt32
  deriving Repr

/-- An opened snapshot. -/
structure Snapshot where
  globalIndex : Bytes
  globalData : Bytes
  /-- The terms in ascending order. -/
  slots : Array Slot

/-! ## Checks -/

/-- The first id, counted from `id`, whose blob does not lie within the data. -/
def globalsFault? (data : Bytes) (id : Nat) (index : Bytes) : Option Corruption :=
  match _h : Bytes.readUInt64? index with
  | none => none
  | some (offset, rest) =>
    if offset ≠ 0 ∧ (regionAt? data offset.toNat).isNone then some (.globalRange id)
    else globalsFault? data (id + 1) rest
termination_by index.length
decreasing_by
  have := Bytes.readUInt64?_length _h
  omega

/-- The text up to the first zero byte and the bytes behind that, `none` without a zero byte. -/
def splitZero? : Bytes → Option (Bytes × Bytes)
  | [] => none
  | b :: rest =>
    if b = 0 then some ([], rest) else Bytes.mapRead (b :: ·) (splitZero? rest)

theorem splitZero?_length {bytes name rest : Bytes} (h : splitZero? bytes = some (name, rest)) :
    rest.length < bytes.length := by
  induction bytes generalizing name with
  | nil => cases h
  | cons b tail ih =>
    unfold splitZero? at h
    split at h
    · cases h
      exact Nat.lt_succ_self _
    · obtain ⟨_, hread, _⟩ := Bytes.mapRead_eq_some.1 h
      exact Nat.lt_succ_of_lt (ih hread)

/-- The terms of an index of so many bytes in all, of which `index` is left. `last` is the term
    before. -/
def readSlots (data : Bytes) (total : Nat) (last : Option String) (index : Bytes) :
    Except Corruption (List Slot) :=
  if index.isEmpty then .ok []
  else
    let offset := total - index.length
    match _hzero : splitZero? index with
    | none => .error .unterminatedTerm
    | some (name, rest) =>
      match String.fromUTF8? ⟨name.toArray⟩ with
      | none => .error (.termEncoding offset)
      | some term =>
        match _hplace : Bytes.readUInt64? rest with
        | none => .error .truncatedEntry
        | some (place, rest) =>
          match _hlongest : Bytes.readUInt32? rest with
          | none => .error .truncatedEntry
          | some (longest, rest) =>
            match regionAt? data place.toNat with
            | none => .error (.termRange offset)
            | some region =>
              if last.any (term ≤ ·) then .error .termOrder
              else (readSlots data total (some term) rest).map (⟨term, region, longest⟩ :: ·)
termination_by index.length
decreasing_by
  have h1 := splitZero?_length _hzero
  have h2 := Bytes.readUInt64?_length _hplace
  have h3 := Bytes.readUInt32?_length _hlongest
  omega

/-- The first flaw in the postings of the terms. -/
def postingsFault? : List Slot → Option Corruption
  | [] => none
  | slot :: rest =>
    match TermData.flaw? slot.data with
    | some flaw => some (.postings slot.term flaw)
    | none => postingsFault? rest

namespace Snapshot

/-- The contents of a file that must be there. -/
def require (files : SnapshotFiles) (file : FileRole) : Except Corruption Bytes :=
  match files file with
  | some contents => .ok contents
  | none => .error (.missing file)

/-- Fails with a corruption, if there is one. -/
def refuse : Option Corruption → Except Corruption Unit
  | some corruption => .error corruption
  | none => .ok ()

/-- Checks the files and reads the index of the terms. -/
def read (settings : OpenSettings) (files : SnapshotFiles) : Except Corruption Snapshot := do
  let globalIndex ← require files .globalIndex
  let globalData ← require files .globalData
  let termIndex ← require files .termIndex
  let termData ← require files .termData
  if globalIndex.length % 8 ≠ 0 then throw .globalIndexLength
  refuse (globalsFault? globalData 0 globalIndex)
  let slots ← readSlots termData termIndex.length none termIndex
  if settings.verify then refuse (postingsFault? slots)
  return ⟨globalIndex, globalData, slots.toArray⟩

/-- Opens the snapshot with the given base name and files. -/
def open? (base : String) (settings : OpenSettings) (files : SnapshotFiles) :
    Except Fault Snapshot :=
  match read settings files with
  | .ok snapshot => .ok snapshot
  | .error cause => .error (.corrupt base cause)

/-! ## Look-ups -/

/-- The blob of an id. -/
def global? (snapshot : Snapshot) (id : DocId) : Option Bytes :=
  match Bytes.readUInt64? (snapshot.globalIndex.drop (8 * id.toNat)) with
  | none => none
  | some (offset, _) => if offset = 0 then none else regionAt? snapshot.globalData offset.toNat

/-- How many terms there are. -/
def termCount (snapshot : Snapshot) : Nat := snapshot.slots.size

/-- All terms in order. -/
def terms (snapshot : Snapshot) : List String := snapshot.slots.toList.map Slot.term

/-- The first place of a term that is not below the text. -/
def placeOf (snapshot : Snapshot) (text : String) : Nat :=
  lowerBound (fun slot => slot.term < text) snapshot.slots

/-- The slot of a term. -/
def slot? (snapshot : Snapshot) (term : String) : Option Slot :=
  snapshot.slots[snapshot.placeOf term]?.filter fun slot => slot.term = term

/-- Whether there is such a term. -/
def contains (snapshot : Snapshot) (term : String) : Bool := (snapshot.slot? term).isSome

/-- The length of the longest list of positions of a term. -/
def longest? (snapshot : Snapshot) (term : String) : Option UInt32 :=
  (snapshot.slot? term).map Slot.longest

/-- The slots of the terms with a stem, in order. -/
def slotsWithStem (snapshot : Snapshot) (stem : String) : List Slot :=
  (snapshot.slots.toList.drop (snapshot.placeOf stem)).takeWhile fun slot => hasStem stem slot.term

/-! ## Cursors -/

/-- A walk over the ids of a term. -/
def walk? (snapshot : Snapshot) (term : String) : Option SnapshotWalk :=
  (snapshot.slot? term).map fun slot => SnapshotWalk.ofData slot.data

/-- A cursor over the ids of a term. -/
def cursor (snapshot : Snapshot) (term : String) : Cursor SnapshotWalk :=
  match snapshot.walk? term with
  | some walk => .leaf walk
  | none => .empty

/-- A cursor over the ids of all terms with a stem. -/
def stemCursor (snapshot : Snapshot) (stem : String) : Cursor SnapshotWalk :=
  Cursor.wildcard ((snapshot.slotsWithStem stem).map fun slot =>
    .leaf (SnapshotWalk.ofData slot.data))

end Snapshot
end InvertedIndex
