import InvertedIndex.Proofs.Snapshot.Offsets
import InvertedIndex.Proofs.Snapshot.Walk

/-!
# `Proofs.Snapshot.TermCursor` — walking by offsets

A cursor over the data of a term keeps places in the data, and a flag for its end. It trusts nothing
that it reads: data that cannot be read, and an id that does not lie above the one before, end it with
a **warning**. A move loops over groups, and over entries up to a target, so it has to be shown that
it comes to an end, whatever the data, and that no place leaves the data on the way.

What a cursor has not read is the `tail` of a walk. Each step of a cursor does on this walk what the
step of the same name does, or ends where that finds nothing; all that is known of walks carries over.

## Contents
- `Tail.takeNext?_eq`, `Tail.takeFrom?_eq`: the walk, step by step;
- `TermCursor`, with its moves `advance` and `advanceTo`;
- `tail`, `walk`: the walk that a cursor stands for; `Inside`: its places are places of the data;
- `Ahead`, `Landed`, `Ended`: what a step may come to; `advance_spec`, `advanceFrom_spec`,
  `skipGroups_spec`, `advanceTo_spec`: what each does come to;
- `Moved`, `move_spec`: a move; `run_spec`, `Steps.walk`, `Steps.ended`: sequences of moves.
-/

namespace InvertedIndex

open Checked TermData

/-! ## The walk, step by step -/

namespace Tail

theorem openGroup?_of_none {tail : Tail} (hbody : tail.body.isEmpty = true)
    (h : decodeGroup? tail.rest = none) : tail.openGroup? = none := by
  rw [openGroup?, if_pos hbody]
  split
  · rfl
  next hsome =>
    rw [h] at hsome
    cases hsome

theorem openGroup?_of_some {tail : Tail} {group : DecodedGroup} (hbody : tail.body.isEmpty = true)
    (h : decodeGroup? tail.rest = some group) :
    tail.openGroup? = openGroup? ⟨group.number, group.body, group.rest⟩ := by
  obtain ⟨number, body, rest⟩ := tail
  obtain rfl : body = [] := List.isEmpty_iff.1 hbody
  exact openGroup?_next number h

/-- The next posting off the opened group. -/
def takeMember? (last : DocId) (tail : Tail) : Option (SnapshotLanding × Tail) :=
  match decodeMember? tail.body with
  | none => none
  | some entry =>
    if tail.idOf entry.member ≤ last then none
    else
      match entry.content.occurrences? with
      | none => none
      | some occurrences =>
        some (⟨tail.idOf entry.member, entry.content.bareValue, occurrences⟩,
          { tail with body := entry.rest })

theorem takeNext?_eq (last : DocId) (tail : Tail) :
    takeNext? last tail = tail.openGroup?.bind (takeMember? last) := by
  unfold takeNext?
  cases tail.openGroup? <;> rfl

theorem takeFrom?_eq (target last : DocId) (tail : Tail) : takeFrom? target last tail =
    (takeNext? last tail).bind fun taken =>
      if target ≤ taken.1.id then some taken else takeFrom? target taken.1.id taken.2 := by
  rw [takeFrom?]
  split
  next hnone =>
    rw [hnone]
    rfl
  next hsome =>
    rw [hsome]
    rfl

theorem takeNext?_nothing (last : DocId) : takeNext? last nothing = none := by
  rw [takeNext?_eq, nothing, openGroup?_nothing]
  rfl

/-- The id taken exceeds the last. -/
theorem takeNext?_lt {last : DocId} {tail left : Tail} {landing : SnapshotLanding}
    (h : takeNext? last tail = some (landing, left)) : last < landing.id := by
  unfold takeNext? at h
  split at h
  · cases h
  split at h
  · cases h
  split at h
  · cases h
  next habove =>
    split at h
    · cases h
    · cases h
      exact UInt32.not_le.1 habove

theorem takeFrom?_lt {target last : DocId} {tail left : Tail} {landing : SnapshotLanding}
    (h : takeFrom? target last tail = some (landing, left)) : last < landing.id := by
  fun_induction takeFrom? target last tail with
  | case1 => cases h
  | case2 last tail first left htake hreached =>
    cases h
    exact takeNext?_lt htake
  | case3 last tail first left htake hshort ih => exact UInt32.lt_trans (takeNext?_lt htake) (ih h)

end Tail

/-! ## Cursors -/

/-- A cursor over the data of a term, by places in the data. -/
structure TermCursor where
  data : Bytes
  /-- The place behind the groups opened or passed over. -/
  nextGroup : Nat
  /-- The id of the first member of the opened group. -/
  groupBase : DocId
  /-- The place of the next entry of the opened group. -/
  entryAt : Nat
  /-- The place behind the entries of the opened group. -/
  groupEnd : Nat
  current : DocId
  value : Int32
  occurrences : List Occurrence
  /-- Whether the cursor is past the end. -/
  done : Bool
  /-- The places where data could not be read, or ids did not ascend. -/
  warnings : List Nat

namespace TermCursor

/-- A cursor over the data, before its first move. -/
def start (data : Bytes) : TermCursor where
  data := data
  nextGroup := 0
  groupBase := 0
  entryAt := 0
  groupEnd := 0
  current := 0
  value := 0
  occurrences := []
  done := false
  warnings := []

/-! ## Moves -/

/-- What is left of the cursor past the end. -/
def exhaust (cursor : TermCursor) : TermCursor :=
  { cursor with done := true, current := 0, value := 0, occurrences := [] }

/-- The same, with a warning about the data at a place. -/
def corrupt (cursor : TermCursor) (place : Nat) : TermCursor :=
  { cursor.exhaust with warnings := cursor.warnings ++ [place] }

/-- The cursor in front of the first entry of a group. -/
def enter (cursor : TermCursor) (header : GroupHeader) : TermCursor :=
  { cursor with
    groupBase := header.number.toUInt32 <<< 12
    entryAt := header.start
    groupEnd := header.stop
    nextGroup := header.stop }

/-- The cursor behind the last entry of the opened group. -/
def leave (cursor : TermCursor) : TermCursor := { cursor with entryAt := cursor.groupEnd }

/-- The cursor with a group passed over. -/
def pass (cursor : TermCursor) (header : GroupHeader) : TermCursor :=
  { cursor with nextGroup := header.stop }

/-- Opens groups until one has an entry. A cursor that finds none ends, and stands in the error. -/
def openGroups (cursor : TermCursor) : Checked (Except TermCursor TermCursor) :=
  if cursor.groupEnd ≤ cursor.entryAt then
    if cursor.data.length ≤ cursor.nextGroup then return .error cursor.exhaust
    else
      match _h : decodeGroupAt cursor.data cursor.nextGroup with
      | .error trap => .error trap
      | .ok none => return .error (cursor.corrupt cursor.nextGroup)
      | .ok (some header) => openGroups (cursor.enter header)
  else return .ok cursor
termination_by cursor.data.length - cursor.nextGroup
decreasing_by
  have := decodeGroupAt_lt _h
  simp only [enter]
  omega

/-- Goes to the next entry of the opened group, or ends. -/
def readEntry (cursor : TermCursor) : Checked (Except TermCursor TermCursor) := do
  match ← decodeEntryAt cursor.data cursor.entryAt cursor.groupEnd with
  | none => return .error (cursor.corrupt cursor.entryAt)
  | some placed =>
    let id := cursor.groupBase ||| placed.member.toUInt32
    if id ≤ cursor.current then return .error (cursor.corrupt cursor.entryAt)
    match ← placed.content.occurrencesAt with
    | none => return .error (cursor.corrupt cursor.entryAt)
    | some occurrences =>
      return .ok { cursor with
        entryAt := placed.next
        value := placed.content.bareValue
        current := id
        occurrences := occurrences }

/-- Moves to the next id and returns it, `0` past the end. -/
def advance (cursor : TermCursor) : Checked (DocId × TermCursor) := do
  if cursor.done then return (0, cursor)
  match ← cursor.openGroups with
  | .error ended => return (0, ended)
  | .ok opened =>
    match ← opened.readEntry with
    | .error ended => return (0, ended)
    | .ok landed => return (landed.current, landed)

/-- Passes over the groups below a number by their headers, or ends. -/
def skipGroups (number : DocId) (cursor : TermCursor) : Checked (Except TermCursor TermCursor) :=
  if cursor.nextGroup < cursor.data.length then
    match _h : decodeGroupAt cursor.data cursor.nextGroup with
    | .error trap => .error trap
    | .ok none => return .error (cursor.corrupt cursor.nextGroup)
    | .ok (some header) =>
      if number ≤ header.number.toUInt32 then return .ok cursor
      else skipGroups number (cursor.pass header)
  else return .ok cursor
termination_by cursor.data.length - cursor.nextGroup
decreasing_by
  have := decodeGroupAt_lt _h
  simp only [pass]
  omega

theorem openGroups_current {cursor opened : TermCursor}
    (h : cursor.openGroups = .ok (.ok opened)) : opened.current = cursor.current := by
  fun_induction openGroups cursor with
  | case1 => cases h
  | case2 => cases h
  | case3 => cases h
  | case4 cursor hend hlt header hread ih => exact ih h
  | case5 =>
    cases h
    rfl

/-- An id that a move returns exceeds the one before. -/
theorem advance_lt {cursor moved : TermCursor} {id : DocId} (h : cursor.advance = .ok (id, moved))
    (hid : id ≠ 0) : cursor.current < id ∧ moved.current = id := by
  unfold advance at h
  split at h
  · cases h
    exact absurd rfl hid
  obtain ⟨opened?, hopen, h⟩ := bind_eq_ok.1 h
  split at h
  · cases h
    exact absurd rfl hid
  next opened =>
    obtain ⟨landed?, hentry, h⟩ := bind_eq_ok.1 h
    split at h
    · cases h
      exact absurd rfl hid
    next landed =>
      cases h
      refine ⟨?_, rfl⟩
      rw [← openGroups_current hopen]
      unfold readEntry at hentry
      obtain ⟨placed?, -, hentry⟩ := bind_eq_ok.1 hentry
      split at hentry
      · cases hentry
      · dsimp only at hentry
        split at hentry
        · cases hentry
        next habove =>
          obtain ⟨occurrences?, -, hentry⟩ := bind_eq_ok.1 hentry
          split at hentry
          · cases hentry
          · cases hentry
            exact UInt32.not_le.1 habove

/-- Moves until an id is at or after the target, or to the end. -/
def advanceFrom (target : DocId) (cursor : TermCursor) : Checked (DocId × TermCursor) :=
  match _h : cursor.advance with
  | .error trap => .error trap
  | .ok (id, moved) =>
    if _hstop : id = 0 ∨ target ≤ id then return (id, moved) else advanceFrom target moved
termination_by UInt32.size - cursor.current.toNat
decreasing_by
  obtain ⟨habove, hmoved⟩ := advance_lt _h fun hid => _hstop (.inl hid)
  exact DocId.above_lt (hmoved ▸ habove)

/-- Moves to the first id at or after the target and returns it, `0` past the end. -/
def advanceTo (target : DocId) (cursor : TermCursor) : Checked (DocId × TermCursor) := do
  if cursor.done then return (0, cursor)
  if cursor.current ≠ 0 ∧ target ≤ cursor.current then return (cursor.current, cursor)
  if cursor.groupEnd ≤ cursor.entryAt ∨ cursor.groupBase >>> 12 < target.group.toUInt32 then
    match ← skipGroups target.group.toUInt32 cursor.leave with
    | .error ended => return (0, ended)
    | .ok passed => passed.advanceFrom target
  else cursor.advanceFrom target

/-- Makes a move. -/
def move : Move → TermCursor → Checked (DocId × TermCursor)
  | .next => advance
  | .seek target => advanceTo target

/-! ## The walk that a cursor stands for -/

/-- What the cursor has not read. -/
def tail (cursor : TermCursor) : Tail where
  number := (cursor.groupBase >>> 12).toUInt16
  body := (cursor.data.take cursor.groupEnd).drop cursor.entryAt
  rest := cursor.data.drop cursor.nextGroup

/-- What the cursor stands on. -/
def landing (cursor : TermCursor) : Option SnapshotLanding :=
  if cursor.current = 0 then none else some ⟨cursor.current, cursor.value, cursor.occurrences⟩

/-- The walk. -/
def walk (cursor : TermCursor) : SnapshotWalk :=
  if cursor.done then ⟨Tail.nothing, none⟩ else ⟨cursor.tail, cursor.landing⟩

/-- The places are places of the data, and without an id there are no positions. -/
structure Inside (cursor : TermCursor) : Prop where
  data : Addressable cursor.data
  entryAt : cursor.entryAt ≤ cursor.groupEnd
  groupEnd : cursor.groupEnd ≤ cursor.data.length
  nextGroup : cursor.nextGroup ≤ cursor.data.length
  groupBase : ∃ number : UInt16, cursor.groupBase = number.toUInt32 <<< 12
  idle : cursor.current = 0 → cursor.value = 0 ∧ cursor.occurrences = []
  done : cursor.done → cursor.current = 0

/-- The cursor has ended over the same data. -/
structure Ended (cursor ended : TermCursor) : Prop where
  inside : ended.Inside
  data : ended.data = cursor.data
  done : ended.done

/-- The cursor has gone on within the data, and stands on the same id. -/
structure Ahead (cursor moved : TermCursor) : Prop where
  inside : moved.Inside
  data : moved.data = cursor.data
  done : moved.done = cursor.done
  current : moved.current = cursor.current
  landing : moved.landing = cursor.landing
  warnings : moved.warnings = cursor.warnings

variable {cursor : TermCursor}

theorem Inside.refl (h : cursor.Inside) : Ahead cursor cursor := ⟨h, rfl, rfl, rfl, rfl, rfl⟩

theorem Ahead.trans {moved further : TermCursor} (h : Ahead cursor moved)
    (h' : Ahead moved further) : Ahead cursor further where
  inside := h'.inside
  data := h'.data.trans h.data
  done := h'.done.trans h.done
  current := h'.current.trans h.current
  landing := h'.landing.trans h.landing
  warnings := h'.warnings.trans h.warnings

theorem Ended.over {moved ended : TermCursor} (h : Ended moved ended)
    (hdata : moved.data = cursor.data) : Ended cursor ended :=
  ⟨h.inside, h.data.trans hdata, h.done⟩

theorem Inside.exhaust (h : cursor.Inside) : Ended cursor cursor.exhaust :=
  ⟨⟨h.data, h.entryAt, h.groupEnd, h.nextGroup, h.groupBase, fun _ => ⟨rfl, rfl⟩, fun _ => rfl⟩,
    rfl, rfl⟩

theorem Inside.corrupt (h : cursor.Inside) (place : Nat) : Ended cursor (cursor.corrupt place) :=
  ⟨⟨h.data, h.entryAt, h.groupEnd, h.nextGroup, h.groupBase, fun _ => ⟨rfl, rfl⟩, fun _ => rfl⟩,
    rfl, rfl⟩

/-- A group within the data is opened, -/
theorem Inside.enter (h : cursor.Inside) {header : GroupHeader} (hbody : header.start ≤ header.stop)
    (hstop : header.stop ≤ cursor.data.length) : Ahead cursor (cursor.enter header) :=
  ⟨⟨h.data, hbody, hstop, hstop, ⟨header.number, rfl⟩, h.idle, h.done⟩, rfl, rfl, rfl, rfl, rfl⟩

/-- or passed over. -/
theorem Inside.pass (h : cursor.Inside) {header : GroupHeader}
    (hstop : header.stop ≤ cursor.data.length) : Ahead cursor (cursor.pass header) :=
  ⟨⟨h.data, h.entryAt, h.groupEnd, hstop, h.groupBase, h.idle, h.done⟩, rfl, rfl, rfl, rfl, rfl⟩

theorem Inside.start {data : Bytes} (h : Addressable data) : (start data).Inside :=
  ⟨h, Nat.le_refl _, Nat.zero_le _, Nat.zero_le _, ⟨0, rfl⟩, fun _ => ⟨rfl, rfl⟩, fun _ => rfl⟩

/-- The number of a group is its base, shifted back. -/
theorem shiftBack (number : UInt16) : (number.toUInt32 <<< 12) >>> 12 = number.toUInt32 := by
  have hnumber := number.toNat_lt
  have hsmall : number.toUInt32.toNat < 2 ^ 20 := by
    rw [UInt16.toNat_toUInt32]
    omega
  have hshift : ((number.toUInt32 <<< 12) ||| 0).toNat = number.toUInt32.toNat * 4096 + 0 :=
    DocId.shiftLeft_or_toNat hsmall (by decide)
  rw [UInt32.or_zero] at hshift
  apply UInt32.toNat_inj.1
  rw [UInt32.toNat_shiftRight, hshift]
  show (number.toUInt32.toNat * 4096 + 0) >>> 12 = number.toUInt32.toNat
  rw [Nat.shiftRight_eq_div_pow]
  omega

theorem walk_start (data : Bytes) : (start data).walk = SnapshotWalk.ofData data := by
  have hnumber : ((0 : DocId) >>> 12).toUInt16 = 0 := by decide
  show SnapshotWalk.mk ⟨((0 : DocId) >>> 12).toUInt16, _, _⟩ none = ⟨⟨0, [], data⟩, none⟩
  rw [hnumber]
  rfl

theorem Inside.tail_idOf (h : cursor.Inside) (member : UInt16) :
    cursor.tail.idOf member = cursor.groupBase ||| member.toUInt32 := by
  obtain ⟨number, hbase⟩ := h.groupBase
  simp only [Tail.idOf, tail, hbase, shiftBack, UInt16.toUInt16_toUInt32]

theorem Inside.body_isEmpty (h : cursor.Inside) :
    cursor.tail.body.isEmpty ↔ cursor.groupEnd ≤ cursor.entryAt := by
  have := h.groupEnd
  rw [List.isEmpty_iff, tail, List.drop_eq_nil_iff, List.length_take, Nat.min_eq_left this]

theorem Inside.body_ne_nil (h : cursor.Inside) (hopen : cursor.entryAt < cursor.groupEnd) :
    cursor.tail.body ≠ [] := fun hnil =>
  Nat.not_le.2 hopen (h.body_isEmpty.1 (List.isEmpty_iff.2 hnil))

/-- Nothing is left of the opened group behind its last entry. -/
theorem Inside.tail_eq (h : cursor.Inside) (hempty : cursor.groupEnd ≤ cursor.entryAt) :
    cursor.tail = ⟨cursor.tail.number, [], cursor.tail.rest⟩ := by
  have hbody : cursor.tail.body = [] := List.isEmpty_iff.1 (h.body_isEmpty.2 hempty)
  rw [← hbody]

theorem Inside.walk_landing (h : cursor.Inside) : cursor.walk.landing = cursor.landing := by
  unfold walk
  split
  next hdone => exact (if_pos (h.done hdone)).symm
  · rfl

theorem Inside.walk_current (h : cursor.Inside) : cursor.walk.current = cursor.current := by
  rw [SnapshotWalk.current, h.walk_landing, landing]
  by_cases hzero : cursor.current = 0
  · rw [if_pos hzero, hzero]
  · rw [if_neg hzero]

/-! ## Each step, read off the walk -/

theorem tail_enter (cursor : TermCursor) (header : GroupHeader) :
    (cursor.enter header).tail = ⟨header.number, (header.group cursor.data).body,
      (header.group cursor.data).rest⟩ := by
  simp only [tail, enter, shiftBack, UInt16.toUInt16_toUInt32]
  rfl

/-- Opening groups does what it does on the walk. -/
theorem openGroups_spec (h : cursor.Inside) :
    (∃ opened, cursor.openGroups = .ok (.ok opened) ∧ Ahead cursor opened ∧
        opened.entryAt < opened.groupEnd ∧ cursor.tail.openGroup? = some opened.tail) ∨
      ∃ ended, cursor.openGroups = .ok (.error ended) ∧ Ended cursor ended ∧
        cursor.tail.openGroup? = none := by
  fun_induction openGroups cursor with
  | case1 cursor hempty hend =>
    refine .inr ⟨_, rfl, h.exhaust, Tail.openGroup?_of_none (h.body_isEmpty.2 hempty) ?_⟩
    rw [tail, List.drop_eq_nil_of_le hend]
    rfl
  | case2 cursor hempty hlt trap hread =>
    exact absurd hread (decodeGroupAt_spec h.data h.nextGroup).ne_error
  | case3 cursor hempty hlt hread =>
    have hsuffix := (decodeGroupAt_spec h.data h.nextGroup).eq_none hread
    exact .inr ⟨_, rfl, h.corrupt _, Tail.openGroup?_of_none (h.body_isEmpty.2 hempty) hsuffix⟩
  | case4 cursor hempty hlt header hread ih =>
    obtain ⟨hsuffix, -, hbody, hstop⟩ := (decodeGroupAt_spec h.data h.nextGroup).eq_some hread
    have hentered := h.enter hbody hstop
    have htail : cursor.tail.openGroup? = (cursor.enter header).tail.openGroup? := by
      rw [tail_enter]
      exact Tail.openGroup?_of_some (h.body_isEmpty.2 hempty) hsuffix
    rw [htail]
    rcases ih hentered.inside with
      ⟨opened, hopened, hahead, hentry, hsome⟩ | ⟨ended, hended, hend, hnone⟩
    · exact .inl ⟨opened, hopened, hentered.trans hahead, hentry, hsome⟩
    · exact .inr ⟨ended, hended, hend.over rfl, hnone⟩
  | case5 cursor hopen =>
    have hbody : cursor.tail.body.isEmpty = false := by
      rw [Bool.eq_false_iff, Ne, h.body_isEmpty]
      exact hopen
    exact .inl ⟨cursor, rfl, h.refl, Nat.not_le.1 hopen, Tail.openGroup?_opened hbody⟩

/-- The cursor has landed on a posting that lies behind the id it stood on. -/
structure Landed (cursor landed : TermCursor) (landing : SnapshotLanding) : Prop where
  inside : landed.Inside
  data : landed.data = cursor.data
  done : landed.done = false
  current : landed.current ≠ 0
  landing : landed.landing = some landing
  warnings : landed.warnings = cursor.warnings

/-- Only the data and the warnings of the cursor before matter. -/
theorem Landed.over {moved landed : TermCursor} {landing : SnapshotLanding}
    (h : Landed moved landed landing) (hdata : moved.data = cursor.data)
    (hwarnings : moved.warnings = cursor.warnings) : Landed cursor landed landing :=
  ⟨h.inside, h.data.trans hdata, h.done, h.current, h.landing, h.warnings.trans hwarnings⟩

theorem Landed.eq {landed : TermCursor} {landing : SnapshotLanding}
    (h : Landed cursor landed landing) :
    landing = ⟨landed.current, landed.value, landed.occurrences⟩ := by
  have hlanding := h.landing
  rw [TermCursor.landing, if_neg h.current] at hlanding
  exact (Option.some.inj hlanding).symm

theorem Landed.id {landed : TermCursor} {landing : SnapshotLanding}
    (h : Landed cursor landed landing) : landing.id = landed.current := by
  rw [h.eq]

/-- Reading an entry takes it off the walk, or ends with a warning about it. -/
theorem readEntry_spec (h : cursor.Inside) (hdone : cursor.done = false)
    (hopen : cursor.entryAt < cursor.groupEnd) :
    (∃ landed landing, cursor.readEntry = .ok (.ok landed) ∧ Landed cursor landed landing ∧
        Tail.takeMember? cursor.current cursor.tail = some (landing, landed.tail)) ∨
      (cursor.readEntry = .ok (.error (cursor.corrupt cursor.entryAt)) ∧
        Tail.takeMember? cursor.current cursor.tail = none) := by
  obtain ⟨placed?, hread, hsuffix, hfits⟩ := decodeEntryAt_spec h.data hopen.le h.groupEnd
  have hmember : decodeMember? cursor.tail.body
    = placed?.map (PlacedEntry.entry cursor.data cursor.groupEnd) := hsuffix
  unfold readEntry Tail.takeMember?
  simp only [hread, hmember, bind, Except.bind]
  cases placed? with
  | none => exact .inr ⟨rfl, rfl⟩
  | some placed =>
    obtain ⟨hlist, hbehind, hnext⟩ := hfits placed rfl
    have hid : cursor.tail.idOf (placed.entry cursor.data cursor.groupEnd).member
      = cursor.groupBase ||| placed.member.toUInt32 := h.tail_idOf placed.member
    simp only [Option.map_some, hid]
    by_cases hlow : cursor.groupBase ||| placed.member.toUInt32 ≤ cursor.current
    · rw [if_pos hlow, if_pos hlow]
      exact .inr ⟨rfl, rfl⟩
    · have habove : cursor.groupBase ||| placed.member.toUInt32 ≠ 0 := by
        intro hzero
        rw [hzero] at hlow
        exact hlow UInt32.zero_le
      have hoccurrences : (placed.entry cursor.data cursor.groupEnd).content.occurrences?
        = placed.content.occurrences? := rfl
      rw [if_neg hlow, if_neg hlow, Content.occurrencesAt_spec hlist, hoccurrences]
      cases placed.content.occurrences? with
      | none => exact .inr ⟨rfl, rfl⟩
      | some occurrences =>
        refine .inl ⟨_, _, rfl, ⟨⟨h.data, hnext, h.groupEnd, h.nextGroup, h.groupBase,
          fun hzero => absurd hzero habove, fun hdone' => ?_⟩, rfl, hdone, habove, if_neg habove,
          rfl⟩, rfl⟩
        exact absurd (hdone.symm.trans hdone') Bool.false_ne_true

/-- **A step reads the next posting off the walk**, or ends as the walk does. -/
theorem advance_spec (h : cursor.Inside) (hdone : cursor.done = false) :
    (∃ landed landing, cursor.advance = .ok (landed.current, landed) ∧
        Landed cursor landed landing ∧
        Tail.takeNext? cursor.current cursor.tail = some (landing, landed.tail)) ∨
      ∃ ended, cursor.advance = .ok (0, ended) ∧ Ended cursor ended ∧
        Tail.takeNext? cursor.current cursor.tail = none := by
  unfold advance
  rw [Tail.takeNext?_eq, if_neg (by rw [hdone]; exact Bool.false_ne_true)]
  rcases openGroups_spec h with
    ⟨opened, hopened, hahead, hentry, hsome⟩ | ⟨ended, hended, hend, hnone⟩
  · rw [hopened, hsome]
    simp only [bind, Except.bind, Option.bind_some, ← hahead.current]
    rcases readEntry_spec hahead.inside (hahead.done.trans hdone) hentry with
      ⟨landed, landing, hread, hlanded, htaken⟩ | ⟨hread, hnone⟩
    · rw [hread, htaken]
      exact .inl ⟨landed, landing, rfl, hlanded.over hahead.data hahead.warnings, rfl⟩
    · rw [hread, hnone]
      exact .inr ⟨_, rfl, (hahead.inside.corrupt _).over hahead.data, rfl⟩
  · rw [hended, hnone]
    exact .inr ⟨ended, rfl, hend, rfl⟩

/-- Steps up to a target read what the walk takes up to it. -/
theorem advanceFrom_spec (h : cursor.Inside) (hdone : cursor.done = false) (target : DocId) :
    (∃ landed landing, cursor.advanceFrom target = .ok (landed.current, landed) ∧
        Landed cursor landed landing ∧
        Tail.takeFrom? target cursor.current cursor.tail = some (landing, landed.tail)) ∨
      ∃ ended, cursor.advanceFrom target = .ok (0, ended) ∧ Ended cursor ended ∧
        Tail.takeFrom? target cursor.current cursor.tail = none := by
  fun_induction advanceFrom target cursor with
  | case1 cursor trap hstep =>
    rcases advance_spec h hdone with ⟨landed, landing, hstep', -, -⟩ | ⟨ended, hstep', -, -⟩
    · rw [hstep] at hstep'
      cases hstep'
    · rw [hstep] at hstep'
      cases hstep'
  | case2 cursor id moved hstep hstop =>
    rw [Tail.takeFrom?_eq]
    rcases advance_spec h hdone with
      ⟨landed, landing, hstep', hlanded, htaken⟩ | ⟨ended, hstep', hend, hnone⟩
    · rw [hstep] at hstep'
      cases hstep'
      have hreached : target ≤ landing.id := by
        rw [hlanded.id]
        exact hstop.resolve_left hlanded.current
      rw [htaken, Option.bind_some, if_pos hreached]
      exact .inl ⟨_, landing, rfl, hlanded, rfl⟩
    · rw [hstep] at hstep'
      cases hstep'
      rw [hnone]
      exact .inr ⟨_, rfl, hend, rfl⟩
  | case3 cursor id moved hstep hstop ih =>
    rw [Tail.takeFrom?_eq]
    rcases advance_spec h hdone with
      ⟨landed, landing, hstep', hlanded, htaken⟩ | ⟨ended, hstep', hend, hnone⟩
    · rw [hstep] at hstep'
      cases hstep'
      have hshort : ¬ target ≤ landing.id := by
        rw [hlanded.id]
        exact fun hreached => hstop (.inr hreached)
      rw [htaken, Option.bind_some, if_neg hshort, hlanded.id]
      rcases ih hlanded.inside hlanded.done with
        ⟨last, landing', hlast, hlanded', htaken'⟩ | ⟨ended, hended, hend, hnone⟩
      · exact .inl ⟨last, landing', hlast, hlanded'.over hlanded.data hlanded.warnings, htaken'⟩
      · exact .inr ⟨ended, hended, hend.over hlanded.data, hnone⟩
    · rw [hstep] at hstep'
      cases hstep'
      exact absurd (.inl rfl) hstop

/-- Passing over groups does what it does on the walk. -/
theorem skipGroups_spec (h : cursor.Inside) (hempty : cursor.groupEnd ≤ cursor.entryAt)
    (number : UInt16) :
    (∃ passed, cursor.skipGroups number.toUInt32 = .ok (.ok passed) ∧ Ahead cursor passed ∧
        (Tail.skipGroups? number cursor.tail.rest).map (Tail.mk cursor.tail.number [])
          = some passed.tail) ∨
      ∃ ended, cursor.skipGroups number.toUInt32 = .ok (.error ended) ∧ Ended cursor ended ∧
        Tail.skipGroups? number cursor.tail.rest = none := by
  fun_induction skipGroups number.toUInt32 cursor with
  | case1 cursor hlt trap hread =>
    exact absurd hread (decodeGroupAt_spec h.data h.nextGroup).ne_error
  | case2 cursor hlt hread =>
    have hsuffix := (decodeGroupAt_spec h.data h.nextGroup).eq_none hread
    have hleft : cursor.tail.rest ≠ [] := List.drop_eq_nil_iff.not.2 (Nat.not_le.2 hlt)
    exact .inr ⟨_, rfl, h.corrupt _, Tail.skipGroups?_of_none number hleft hsuffix⟩
  | case3 cursor hlt header hread hreached =>
    obtain ⟨hsuffix, -⟩ := (decodeGroupAt_spec h.data h.nextGroup).eq_some hread
    refine .inl ⟨cursor, rfl, h.refl, ?_⟩
    have hskip : Tail.skipGroups? number cursor.tail.rest =
        if number ≤ header.number then some cursor.tail.rest
        else Tail.skipGroups? number (cursor.data.drop header.stop) :=
      Tail.skipGroups?_of_some number hsuffix
    rw [hskip, if_pos (UInt16.toUInt32_le.1 hreached), Option.map_some, ← h.tail_eq hempty]
  | case4 cursor hlt header hread hshort ih =>
    obtain ⟨hsuffix, -, -, hstop⟩ := (decodeGroupAt_spec h.data h.nextGroup).eq_some hread
    have hpassed := h.pass hstop
    have hskip : Tail.skipGroups? number cursor.tail.rest =
        if number ≤ header.number then some cursor.tail.rest
        else Tail.skipGroups? number (cursor.data.drop header.stop) :=
      Tail.skipGroups?_of_some number hsuffix
    rw [hskip, if_neg fun h => hshort (UInt16.toUInt32_le.2 h)]
    rcases ih hpassed.inside hempty with
      ⟨passed, hskipped, hahead, hsome⟩ | ⟨ended, hended, hend, hnone⟩
    · exact .inl ⟨passed, hskipped, hpassed.trans hahead, hsome⟩
    · exact .inr ⟨ended, hended, hend.over rfl, hnone⟩
  | case5 cursor hend =>
    refine .inl ⟨cursor, rfl, h.refl, ?_⟩
    have hrest : cursor.tail.rest = [] := List.drop_eq_nil_of_le (Nat.not_lt.1 hend)
    rw [h.tail_eq hempty, hrest, Tail.skipGroups?, List.isEmpty_nil, if_pos rfl, Option.map_some]

/-- **Going to a target lands where the walk does**, or ends as it does. -/
theorem advanceTo_spec (h : cursor.Inside) (hdone : cursor.done = false) {target : DocId}
    (hrests : (Move.seek target).rests cursor.current = false) :
    (∃ landed landing, cursor.advanceTo target = .ok (landed.current, landed) ∧
        Landed cursor landed landing ∧
        (cursor.tail.passTo? target.group).bind (Tail.takeFrom? target cursor.current)
          = some (landing, landed.tail)) ∨
      ∃ ended, cursor.advanceTo target = .ok (0, ended) ∧ Ended cursor ended ∧
        (cursor.tail.passTo? target.group).bind (Tail.takeFrom? target cursor.current) = none := by
  have hmoves : ¬ (cursor.current ≠ 0 ∧ target ≤ cursor.current) := by
    simpa [Move.rests] using hrests
  have hpass : (cursor.tail.body.isEmpty ∨ cursor.tail.number < target.group)
      ↔ (cursor.groupEnd ≤ cursor.entryAt ∨ cursor.groupBase >>> 12 < target.group.toUInt32) := by
    obtain ⟨number, hbase⟩ := h.groupBase
    refine or_congr h.body_isEmpty ?_
    simp only [tail, hbase, shiftBack, UInt16.toUInt16_toUInt32, UInt16.toUInt32_lt]
  unfold advanceTo Tail.passTo?
  rw [if_neg (by rw [hdone]; exact Bool.false_ne_true), if_neg hmoves]
  by_cases hskip :
      cursor.groupEnd ≤ cursor.entryAt ∨ cursor.groupBase >>> 12 < target.group.toUInt32
  · have hleft : cursor.leave.Inside :=
      ⟨h.data, Nat.le_refl _, h.groupEnd, h.nextGroup, h.groupBase, h.idle, h.done⟩
    rw [if_pos hskip, if_pos (hpass.2 hskip)]
    rcases skipGroups_spec hleft (Nat.le_refl _) target.group with
      ⟨passed, hskipped, hahead, hsome⟩ | ⟨ended, hended, hend, hnone⟩
    · have htail : (Tail.skipGroups? target.group cursor.tail.rest).map
          (fun rest => Tail.mk cursor.tail.number [] rest) = some passed.tail := hsome
      have hcurrent : cursor.current = passed.current := hahead.current.symm
      rw [hskipped, htail, Option.bind_some, hcurrent]
      rcases advanceFrom_spec hahead.inside (hahead.done.trans hdone) target with
        ⟨landed, landing, hmoved, hlanded, htaken⟩ | ⟨ended, hmoved, hend, hnone⟩
      · exact .inl ⟨landed, landing, hmoved, hlanded.over hahead.data hahead.warnings, htaken⟩
      · exact .inr ⟨ended, hmoved, hend.over hahead.data, hnone⟩
    · have hstuck : Tail.skipGroups? target.group cursor.tail.rest = none := hnone
      rw [hended, hstuck]
      exact .inr ⟨ended, rfl, hend.over rfl, rfl⟩
  · rw [if_neg hskip, if_neg fun h => hskip (hpass.1 h), Option.bind_some]
    exact advanceFrom_spec h hdone target

/-! ## Sequences of moves -/

/-- What a move does: it stays within the data and does on the walk what it does there. An id that
    it returns lies above the one before, unless the cursor rests on that. When it returns `0`, the
    cursor has ended and has no positions. -/
structure Moved (m : Move) (cursor : TermCursor) (id : DocId) (moved : TermCursor) : Prop where
  inside : moved.Inside
  data : moved.data = cursor.data
  returned : id = moved.current
  walk : moved.walk = IdStream.move m cursor.walk
  rises : id ≠ 0 → cursor.current < id ∨ (m.rests cursor.current ∧ moved = cursor)
  ends : id = 0 → moved.done ∧ moved.value = 0 ∧ moved.occurrences = []

/-- A cursor that has ended stays as it is. -/
theorem move_of_done (hdone : cursor.done) (m : Move) : cursor.move m = .ok (0, cursor) := by
  cases m with
  | next =>
    show cursor.advance = _
    rw [advance, if_pos hdone]
    rfl
  | seek target =>
    show cursor.advanceTo target = _
    rw [advanceTo, if_pos hdone]
    rfl

/-- So does the walk. -/
theorem walk_of_done (hdone : cursor.done) (m : Move) :
    IdStream.move m cursor.walk = cursor.walk := by
  rw [walk, if_pos hdone]
  cases m with
  | next =>
    show SnapshotWalk.ofTaken (Tail.takeNext? 0 Tail.nothing) = _
    rw [Tail.takeNext?_nothing]
    rfl
  | seek target =>
    have hrests : (Move.seek target).rests 0 = false := by simp [Move.rests]
    have hpass : Tail.nothing.passTo? target.group = some Tail.nothing := by
      rw [Tail.passTo?, if_pos (.inl rfl), Tail.skipGroups?]
      rfl
    show (if (Move.seek target).rests 0 then (⟨Tail.nothing, none⟩ : SnapshotWalk)
      else SnapshotWalk.ofTaken
        ((Tail.nothing.passTo? target.group).bind (Tail.takeFrom? target 0))) = _
    rw [hrests, if_neg Bool.false_ne_true, hpass, Option.bind_some, Tail.takeFrom?_eq,
      Tail.takeNext?_nothing]
    rfl

theorem Landed.moved {m : Move} {landed : TermCursor} {landing : SnapshotLanding}
    (h : Landed cursor landed landing) (hlt : cursor.current < landing.id)
    (hwalk : IdStream.move m cursor.walk = ⟨landed.tail, some landing⟩) :
    Moved m cursor landed.current landed := by
  rw [h.id] at hlt
  refine ⟨h.inside, h.data, rfl, ?_, fun _ => .inl hlt, fun hzero => absurd hzero h.current⟩
  rw [hwalk, walk, h.done, if_neg Bool.false_ne_true, h.landing]

theorem Ended.moved {m : Move} {ended : TermCursor} (h : Ended cursor ended)
    (hwalk : IdStream.move m cursor.walk = ⟨Tail.nothing, none⟩) : Moved m cursor 0 ended := by
  have hzero : ended.current = 0 := h.inside.done h.done
  refine ⟨h.inside, h.data, hzero.symm, ?_, fun hne => absurd rfl hne, fun _ => ?_⟩
  · rw [hwalk, walk, if_pos h.done]
  · exact ⟨h.done, h.inside.idle hzero⟩

/-- **Each move, of any cursor within its data, comes to an end without a trap.** -/
theorem move_spec (h : cursor.Inside) (m : Move) :
    ∃ id moved, cursor.move m = .ok (id, moved) ∧ Moved m cursor id moved := by
  by_cases hdone : cursor.done = true
  · have hzero : cursor.current = 0 := h.done hdone
    exact ⟨0, cursor, move_of_done hdone m, h, rfl, hzero.symm, (walk_of_done hdone m).symm,
      fun hne => absurd rfl hne, fun _ => ⟨hdone, h.idle hzero⟩⟩
  have hdone : cursor.done = false := by simpa using hdone
  have hwalk : cursor.walk = ⟨cursor.tail, cursor.landing⟩ := by
    rw [walk, hdone, if_neg Bool.false_ne_true]
  have hcurrent := h.walk_current
  cases m with
  | next =>
    have hnext : IdStream.move .next cursor.walk
        = SnapshotWalk.ofTaken (Tail.takeNext? cursor.current cursor.tail) := by
      show SnapshotWalk.ofTaken (Tail.takeNext? cursor.walk.current cursor.walk.tail) = _
      rw [hcurrent, hwalk]
    rcases advance_spec h hdone with
      ⟨landed, landing, hmoved, hlanded, htaken⟩ | ⟨ended, hmoved, hend, hnone⟩
    · refine ⟨_, _, hmoved, hlanded.moved (Tail.takeNext?_lt htaken) ?_⟩
      rw [hnext, htaken]
      rfl
    · refine ⟨_, _, hmoved, hend.moved ?_⟩
      rw [hnext, hnone]
      rfl
  | seek target =>
    by_cases hrests : (Move.seek target).rests cursor.current = true
    · have hstays : cursor.current ≠ 0 ∧ target ≤ cursor.current := by
        simpa [Move.rests] using hrests
      refine ⟨cursor.current, cursor, ?_, h, rfl, rfl, ?_, fun _ => .inr ⟨hrests, rfl⟩,
        fun hzero => absurd hzero hstays.1⟩
      · show cursor.advanceTo target = _
        rw [advanceTo, if_neg (by rw [hdone]; exact Bool.false_ne_true), if_pos hstays]
        rfl
      · show _ = (if (Move.seek target).rests cursor.walk.current then _ else _)
        rw [hcurrent, if_pos hrests]
    · have hseek : IdStream.move (.seek target) cursor.walk = SnapshotWalk.ofTaken
          ((cursor.tail.passTo? target.group).bind (Tail.takeFrom? target cursor.current)) := by
        show (if (Move.seek target).rests cursor.walk.current then _
          else SnapshotWalk.ofTaken ((cursor.walk.tail.passTo? target.group).bind
            (Tail.takeFrom? target cursor.walk.current))) = _
        rw [hcurrent, if_neg hrests, hwalk]
      rcases advanceTo_spec h hdone (by simpa using hrests) with
        ⟨landed, landing, hmoved, hlanded, htaken⟩ | ⟨ended, hmoved, hend, hnone⟩
      · obtain ⟨passed, -, hfrom⟩ := Option.bind_eq_some_iff.1 htaken
        refine ⟨_, _, hmoved, hlanded.moved (Tail.takeFrom?_lt hfrom) ?_⟩
        rw [hseek, htaken]
        rfl
      · refine ⟨_, _, hmoved, hend.moved ?_⟩
        rw [hseek, hnone]
        rfl

/-- What each of the moves returns, and the cursor behind it. -/
def run : List Move → TermCursor → Checked (List (DocId × TermCursor))
  | [], _ => return []
  | m :: moves, cursor => do
    let (id, moved) ← cursor.move m
    return (id, moved) :: (← run moves moved)

/-- Each step is what the next of the moves does. -/
def Steps : TermCursor → List Move → List (DocId × TermCursor) → Prop
  | _, [], [] => True
  | cursor, m :: moves, step :: steps =>
    Moved m cursor step.1 step.2 ∧ Steps step.2 moves steps
  | _, _, _ => False

/-- **So does every sequence of moves.** -/
theorem run_spec (h : cursor.Inside) (moves : List Move) :
    ∃ steps, cursor.run moves = .ok steps ∧ Steps cursor moves steps := by
  induction moves generalizing cursor with
  | nil => exact ⟨[], rfl, trivial⟩
  | cons m moves ih =>
    obtain ⟨id, moved, hmove, hmoved⟩ := move_spec h m
    obtain ⟨steps, hrun, hsteps⟩ := ih hmoved.inside
    refine ⟨(id, moved) :: steps, ?_, hmoved, hsteps⟩
    rw [run, hmove]
    simp only [bind, Except.bind, hrun]
    rfl

/-- The steps are those of the walk. -/
theorem Steps.walk {moves : List Move} {steps : List (DocId × TermCursor)}
    (h : Steps cursor moves steps) :
    (steps.map fun step => step.2.walk) = IdStream.trace moves cursor.walk := by
  induction moves generalizing cursor steps with
  | nil =>
    cases steps with
    | nil => rfl
    | cons => exact h.elim
  | cons m moves ih =>
    cases steps with
    | nil => exact h.elim
    | cons step steps =>
      obtain ⟨hmoved, hsteps⟩ := h
      rw [List.map_cons, ih hsteps, hmoved.walk]
      rfl

theorem run_of_done (hdone : cursor.done) (moves : List Move) :
    cursor.run moves = .ok (List.replicate moves.length (0, cursor)) := by
  induction moves with
  | nil => rfl
  | cons m moves ih =>
    rw [run, move_of_done hdone]
    simp only [bind, Except.bind, ih]
    rfl

/-- **Once a move has returned `0`, all moves return it for ever.** -/
theorem Steps.ended {moves : List Move} {steps : List (DocId × TermCursor)}
    (h : Steps cursor moves steps) (hrun : cursor.run moves = .ok steps) :
    steps.Pairwise fun earlier later => earlier.1 = 0 → later = earlier := by
  induction moves generalizing cursor steps with
  | nil =>
    cases hrun
    exact .nil
  | cons m moves ih =>
    obtain ⟨⟨id, moved⟩, hmove, hrun⟩ := bind_eq_ok.1 hrun
    obtain ⟨others, hothers, hrun⟩ := bind_eq_ok.1 hrun
    cases hrun
    obtain ⟨hmoved, hsteps⟩ := h
    refine List.pairwise_cons.2 ⟨fun later hlater hzero => ?_, ih hsteps hothers⟩
    rw [run_of_done (hmoved.ends hzero).1] at hothers
    cases hothers
    rw [List.eq_of_mem_replicate hlater, ← hzero]

end TermCursor

end InvertedIndex
