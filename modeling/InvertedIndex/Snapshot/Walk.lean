import InvertedIndex.Cursor.Protocol
import InvertedIndex.Snapshot.TermData

/-!
# `InvertedIndex.Snapshot.Walk` — the ids of a term, straight from the bytes

A walk decodes one entry at a time. To seek, it first passes over the groups below that of the
target by their headers alone. Data that cannot be read, or ids that do not ascend, end the walk.

## Contents
- `SnapshotLanding`, `Tail`: where a walk stands and what is unread;
- `Tail.takeNext?`, `Tail.takeFrom?`: the next id, and the next at or after a target;
- `Tail.skipGroups?`: the groups below a target passed over;
- `SnapshotWalk`, with its instance of `IdStream`.
-/

namespace InvertedIndex

/-- A posting that a walk landed on. -/
structure SnapshotLanding where
  id : DocId
  /-- The bare value, `0` for a list. -/
  value : Int32
  /-- The occurrences of the list, none for a bare value. -/
  occurrences : List Occurrence

/-- What a walk has not read. -/
structure Tail where
  /-- The number of the group last opened. -/
  number : UInt16
  /-- The rest of its body. -/
  body : Bytes
  /-- The data behind it. -/
  rest : Bytes

namespace Tail

/-- Nothing. -/
def nothing : Tail := ⟨0, [], []⟩

/-- How many bytes are unread. -/
def size (tail : Tail) : Nat := tail.body.length + tail.rest.length

/-- Opens groups until one has an entry, `none` if there is none or a group cannot be read. -/
def openGroup? (tail : Tail) : Option Tail :=
  if tail.body.isEmpty then
    match _h : TermData.decodeGroup? tail.rest with
    | none => none
    | some group => openGroup? ⟨group.number, group.body, group.rest⟩
  else some tail
termination_by tail.rest.length
decreasing_by
  have := TermData.decodeGroup?_length _h
  omega

/-- The id of a member of the opened group. -/
def idOf (tail : Tail) (member : UInt16) : DocId :=
  (tail.number.toUInt32 <<< 12) ||| member.toUInt32

/-- The next posting and what is unread behind it. Its id must exceed `last`. -/
def takeNext? (last : DocId) (tail : Tail) : Option (SnapshotLanding × Tail) :=
  match tail.openGroup? with
  | none => none
  | some tail =>
    match TermData.decodeMember? tail.body with
    | none => none
    | some entry =>
      if tail.idOf entry.member ≤ last then none
      else
        match entry.content.occurrences? with
        | none => none
        | some occurrences =>
          some (⟨tail.idOf entry.member, entry.content.bareValue, occurrences⟩,
            { tail with body := entry.rest })

theorem openGroup?_size {tail opened : Tail} (h : tail.openGroup? = some opened) :
    opened.size ≤ tail.size := by
  fun_induction openGroup? tail with
  | case1 => cases h
  | case2 tail hempty group hdecode ih =>
    have := TermData.decodeGroup?_length hdecode
    have := ih h
    simp only [size] at this ⊢
    omega
  | case3 =>
    cases h
    exact Nat.le_refl _

theorem takeNext?_size {last : DocId} {tail left : Tail} {landing : SnapshotLanding}
    (h : takeNext? last tail = some (landing, left)) : left.size < tail.size := by
  unfold takeNext? at h
  split at h
  · cases h
  · next opened hopen =>
    have hsize := openGroup?_size hopen
    split at h
    · cases h
    · next entry hentry =>
      have hlength := TermData.decodeMember?_length hentry
      split at h
      · cases h
      · split at h
        · cases h
        · cases h
          simp only [size] at hsize ⊢
          omega

/-- The next posting at or after the target and what is unread behind it. -/
def takeFrom? (target last : DocId) (tail : Tail) : Option (SnapshotLanding × Tail) :=
  match _h : takeNext? last tail with
  | none => none
  | some (landing, left) =>
    if target ≤ landing.id then some (landing, left) else takeFrom? target landing.id left
termination_by tail.size
decreasing_by exact takeNext?_size _h

/-- The data behind the groups below `number`, `none` if one of them cannot be read. -/
def skipGroups? (number : UInt16) (data : Bytes) : Option Bytes :=
  if data.isEmpty then some []
  else
    match _h : TermData.decodeGroup? data with
    | none => none
    | some group => if number ≤ group.number then some data else skipGroups? number group.rest
termination_by data.length
decreasing_by
  have := TermData.decodeGroup?_length _h
  omega

/-- What is unread after passing over the groups below `number`: the rest of the opened group stays
    unless that is one of them. -/
def passTo? (number : UInt16) (tail : Tail) : Option Tail :=
  if tail.body.isEmpty ∨ tail.number < number then
    (skipGroups? number tail.rest).map fun rest => ⟨tail.number, [], rest⟩
  else some tail

end Tail

/-- A walk over the postings of a term of a snapshot. -/
structure SnapshotWalk where
  tail : Tail
  /-- The posting that the walk stands on. -/
  landing : Option SnapshotLanding

namespace SnapshotWalk

/-- A walk over the data of a term, before its first move. -/
def ofData (data : Bytes) : SnapshotWalk := ⟨⟨0, [], data⟩, none⟩

/-- The id that the walk stands on. -/
def current (walk : SnapshotWalk) : DocId :=
  match walk.landing with
  | some landing => landing.id
  | none => 0

/-- The bare value at the current id, `0` for a list. -/
def value (walk : SnapshotWalk) : Int32 :=
  match walk.landing with
  | some landing => landing.value
  | none => 0

/-- The occurrences at the current id. -/
def occurrences (walk : SnapshotWalk) : List Occurrence :=
  match walk.landing with
  | some landing => landing.occurrences
  | none => []

/-- The walk that stands on what was taken, or past the end if nothing was. -/
def ofTaken : Option (SnapshotLanding × Tail) → SnapshotWalk
  | some (landing, left) => ⟨left, some landing⟩
  | none => ⟨Tail.nothing, none⟩

instance : IdStream SnapshotWalk where
  current := current
  window walk := walk.occurrences.map Occurrence.position
  next walk := ofTaken (walk.tail.takeNext? walk.current)
  seek target walk :=
    if (Move.seek target).rests walk.current then walk
    else ofTaken ((walk.tail.passTo? target.group).bind (Tail.takeFrom? target walk.current))

end SnapshotWalk
end InvertedIndex
