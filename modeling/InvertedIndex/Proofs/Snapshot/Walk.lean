import InvertedIndex.Proofs.Cursor.Hits
import InvertedIndex.Proofs.Cursor.Pace
import InvertedIndex.Proofs.Snapshot.Check
import InvertedIndex.Proofs.Snapshot.TermData

/-!
# `Proofs.Snapshot.Walk` — walking the data of a term

Data that was written properly consists of groups, ascending, each with entries, ascending. A walk
over it goes through its documents in order, and the check of the data finds no flaw. The walk
insists that ids ascend; it never stops for that reason here, for all that is left lies above the id
it stands on.

## Contents
- `WrittenEntry`, `WrittenGroup`, with the conditions under which they are read back;
- `Remaining`: what a walk has not read; `takeNext?_spec`, `takeFrom?_spec`, `passTo?_spec`;
- `SnapshotWalk.tape`: a walk as the reader of a tape;
- `SnapshotWalk.shows`: a walk behaves like the stream of the hits that are left;
- `WrittenGroup.drain_ofData`: a walk over the data of a term lands on all its postings;
- `flaw?_eq_none`: the check accepts the data.
-/

namespace InvertedIndex

/-! ## Written data -/

/-- A document of a group, as written. -/
structure WrittenEntry where
  member : UInt16
  occurrences : List Occurrence

namespace WrittenEntry

/-- The entry can be read back. -/
structure Sound (entry : WrittenEntry) : Prop where
  member : entry.member.toNat < 4096
  writable : TermData.Writable entry.occurrences

/-- The bytes of an entry. -/
def bytes (entry : WrittenEntry) : Bytes := TermData.encodeEntry entry.member entry.occurrences

/-- The bytes of several entries. -/
def bytesAll (entries : List WrittenEntry) : Bytes := entries.flatMap bytes

/-- The posting that a walk lands on. -/
def landing (number : UInt16) (entry : WrittenEntry) : SnapshotLanding where
  id := DocId.compose number entry.member
  value := (TermData.contentOf entry.occurrences).bareValue
  occurrences := TermData.kept entry.occurrences

/-- The entry as it is read back. -/
def encoded (entry : WrittenEntry) : EncodedEntry where
  member := entry.member
  content := TermData.contentOf entry.occurrences
  occurrences := TermData.kept entry.occurrences

end WrittenEntry

/-- A group of a term, as written. -/
structure WrittenGroup where
  number : UInt16
  entries : List WrittenEntry

namespace WrittenGroup

/-- The group can be read back. -/
structure Sound (group : WrittenGroup) : Prop where
  nonempty : group.entries ≠ []
  ascending : Ascending WrittenEntry.member group.entries
  entries : ∀ entry ∈ group.entries, entry.Sound
  size : (WrittenEntry.bytesAll group.entries).length ≤ TermData.maxGroupBytes

/-- The bytes of a group. -/
def bytes (group : WrittenGroup) : Bytes :=
  TermData.encodeGroup group.number (WrittenEntry.bytesAll group.entries)

/-- The bytes of several groups. -/
def bytesAll (groups : List WrittenGroup) : Bytes := groups.flatMap bytes

/-- The postings of a group. -/
def landings (group : WrittenGroup) : List SnapshotLanding :=
  group.entries.map (WrittenEntry.landing group.number)

/-- The group as it is read back. -/
def encoded (group : WrittenGroup) : EncodedGroup :=
  ⟨group.number, group.entries.map WrittenEntry.encoded⟩

/-- The postings of several groups. -/
def landingsAll (groups : List WrittenGroup) : List SnapshotLanding := groups.flatMap landings

variable {group : WrittenGroup} {rest : List WrittenGroup}

theorem decodeGroup?_bytesAll (h : group.Sound) : TermData.decodeGroup? (bytesAll (group :: rest))
    = some ⟨group.number, WrittenEntry.bytesAll group.entries, bytesAll rest⟩ :=
  TermData.decodeGroup?_encodeGroup h.size group.number (bytesAll rest)

end WrittenGroup

namespace WrittenEntry

variable {entry : WrittenEntry} {rest : List WrittenEntry}

theorem decodeMember?_bytesAll (h : entry.Sound) : TermData.decodeMember? (bytesAll (entry :: rest))
    = some ⟨entry.member, TermData.contentOf entry.occurrences, bytesAll rest⟩ :=
  TermData.decodeMember?_encodeEntry h.member h.writable (bytesAll rest)

theorem bytesAll_isEmpty (h : entry.Sound) : (bytesAll (entry :: rest)).isEmpty = false := by
  cases hbytes : bytesAll (entry :: rest) with
  | cons => rfl
  | nil =>
    have hread : TermData.decodeMember? (bytesAll (entry :: rest)) = some _ :=
      decodeMember?_bytesAll h
    rw [hbytes] at hread
    cases hread

theorem holdsEntries {entries : List WrittenEntry} (h : ∀ entry ∈ entries, entry.Sound) :
    TermData.HoldsEntries (bytesAll entries) (entries.map encoded) := by
  induction entries with
  | nil => exact .nil
  | cons entry rest ih =>
    obtain ⟨hentry, hrest⟩ := List.forall_mem_cons.1 h
    exact .cons (decodeMember?_bytesAll hentry)
      (TermData.occurrences?_contentOf hentry.writable.nonempty) (ih hrest)

end WrittenEntry

/-! ## What a walk has not read -/

/-- The entries left of the opened group, and the groups behind it. -/
structure Remaining where
  number : UInt16
  entries : List WrittenEntry
  groups : List WrittenGroup

namespace Remaining

/-- The postings that are left. -/
def landings (left : Remaining) : List SnapshotLanding :=
  left.entries.map (WrittenEntry.landing left.number) ++ WrittenGroup.landingsAll left.groups

/-- The tail is where they stand, in ascending order. -/
structure In (left : Remaining) (tail : Tail) : Prop where
  number : left.entries ≠ [] → tail.number = left.number
  body : tail.body = WrittenEntry.bytesAll left.entries
  rest : tail.rest = WrittenGroup.bytesAll left.groups
  entries : ∀ entry ∈ left.entries, entry.Sound
  groups : ∀ group ∈ left.groups, group.Sound
  ascending : left.landings.Pairwise fun a b => a.id < b.id

end Remaining

/-- What is taken off the front of some postings: the first of them, with the others left. -/
def TakenOff (landings : List SnapshotLanding) : Option (SnapshotLanding × Tail) → Prop
  | none => landings = []
  | some (landing, tail) => ∃ left : Remaining, left.In tail ∧ landings = landing :: left.landings

namespace Tail

variable {left : Remaining} {tail : Tail}

/-- Without masking, the id of an entry is the same, for its member number has 12 bits. -/
theorem idOf_eq {member : UInt16} (h : member.toNat < 4096) (tail : Tail) :
    tail.idOf member = DocId.compose tail.number member := by
  have hmask : member.toUInt32 &&& DocId.memberMask = member.toUInt32 := by
    apply UInt32.toNat_inj.1
    rw [UInt32.toNat_and, UInt16.toNat_toUInt32]
    show member.toNat &&& 2 ^ 12 - 1 = _
    rw [Nat.and_two_pow_sub_one_eq_mod]
    omega
  rw [DocId.compose, hmask]
  rfl

theorem openGroup?_opened (h : tail.body.isEmpty = false) : tail.openGroup? = some tail := by
  unfold openGroup?
  rw [h]
  rfl

theorem openGroup?_next {rest : Bytes} {group : TermData.DecodedGroup} (number : UInt16)
    (h : TermData.decodeGroup? rest = some group) :
    openGroup? ⟨number, [], rest⟩ = openGroup? ⟨group.number, group.body, group.rest⟩ := by
  rw [openGroup?]
  simp only [List.isEmpty_nil, if_true]
  split
  next hnone =>
    rw [h] at hnone
    cases hnone
  next hread =>
    rw [h] at hread
    cases hread
    rfl

theorem openGroup?_nothing (number : UInt16) : openGroup? ⟨number, [], []⟩ = none := by
  rw [openGroup?]
  simp only [List.isEmpty_nil, if_true]
  split
  · rfl
  next hread => cases hread

/-- Opening a group finds the first entry that is left. -/
theorem openGroup?_spec (h : left.In tail) :
    match tail.openGroup? with
    | none => left.landings = []
    | some opened => ∃ entry rest groups,
        Remaining.In ⟨opened.number, entry :: rest, groups⟩ opened ∧
          left.landings = Remaining.landings ⟨opened.number, entry :: rest, groups⟩ := by
  obtain ⟨number, entries, groups⟩ := left
  obtain ⟨tailNumber, body, rest⟩ := tail
  obtain ⟨hnumber, rfl, rfl, hentries, hgroups, hasc⟩ := h
  -- With entries left, the group is still open; without, the next one is, if there is any.
  cases entries with
  | cons entry others =>
    have hhead := (List.forall_mem_cons.1 hentries).1
    obtain rfl : tailNumber = number := hnumber (List.cons_ne_nil _ _)
    rw [openGroup?_opened (WrittenEntry.bytesAll_isEmpty hhead)]
    exact ⟨entry, others, groups, ⟨fun _ => rfl, rfl, rfl, hentries, hgroups, hasc⟩, rfl⟩
  | nil =>
    cases groups with
    | nil =>
      rw [show openGroup? ⟨tailNumber, WrittenEntry.bytesAll [], WrittenGroup.bytesAll []⟩ = none from
        openGroup?_nothing tailNumber]
      rfl
    | cons group groups =>
      obtain ⟨hgroup, hothers⟩ := List.forall_mem_cons.1 hgroups
      obtain ⟨number', groupEntries⟩ := group
      obtain ⟨entry, others, rfl⟩ := List.exists_cons_of_ne_nil hgroup.nonempty
      have hhead := hgroup.entries entry List.mem_cons_self
      have hlandings : Remaining.landings ⟨number', entry :: others, groups⟩
          = Remaining.landings ⟨number, [], ⟨number', entry :: others⟩ :: groups⟩ := rfl
      rw [show openGroup? ⟨tailNumber, WrittenEntry.bytesAll [],
          WrittenGroup.bytesAll (⟨number', entry :: others⟩ :: groups)⟩ = _ from
        openGroup?_next tailNumber (WrittenGroup.decodeGroup?_bytesAll hgroup),
        openGroup?_opened (WrittenEntry.bytesAll_isEmpty hhead)]
      refine ⟨entry, others, groups, ⟨fun _ => rfl, rfl, rfl, hgroup.entries, hothers, ?_⟩,
        hlandings.symm⟩
      rw [hlandings]
      exact hasc

/-- Reading takes the first posting, if all that is left lies above the last id. -/
theorem takeNext?_spec (h : left.In tail) {last : DocId}
    (hlast : ∀ landing ∈ left.landings, last < landing.id) :
    TakenOff left.landings (takeNext? last tail) := by
  have hopen := openGroup?_spec h
  unfold takeNext?
  split
  next hnone =>
    rw [hnone] at hopen
    exact hopen
  next opened hopened =>
    rw [hopened] at hopen
    obtain ⟨entry, rest, groups, hin, hlandings⟩ := hopen
    obtain ⟨hentry, hrest⟩ := List.forall_mem_cons.1 hin.entries
    have hfirst : Remaining.landings ⟨opened.number, entry :: rest, groups⟩
        = entry.landing opened.number :: Remaining.landings ⟨opened.number, rest, groups⟩ := rfl
    rw [hlandings, hfirst] at hlast ⊢
    have hid : opened.idOf entry.member = DocId.compose opened.number entry.member :=
      idOf_eq hentry.member opened
    -- Ids ascend, so the check on the id just read never ends the walk.
    have habove : ¬ opened.idOf entry.member ≤ last := by
      rw [hid]
      exact UInt32.not_le.2 (hlast _ List.mem_cons_self)
    simp only [hin.body, WrittenEntry.decodeMember?_bytesAll hentry, if_neg habove,
      TermData.occurrences?_contentOf hentry.writable.nonempty]
    refine ⟨⟨opened.number, rest, groups⟩, ⟨fun _ => rfl, rfl, hin.rest, hrest, hin.groups, ?_⟩, ?_⟩
    · exact (List.pairwise_cons.1 hin.ascending).2
    · rw [hid]
      rfl

/-- Reading up to a target takes the first posting at or after it. -/
theorem takeFrom?_spec (h : left.In tail) (target : DocId) {last : DocId}
    (hlast : ∀ landing ∈ left.landings, last < landing.id) :
    TakenOff (left.landings.dropWhile fun landing => landing.id < target)
      (takeFrom? target last tail) := by
  fun_induction takeFrom? target last tail generalizing left with
  | case1 last tail hnone =>
    have htaken := takeNext?_spec h hlast
    rw [hnone] at htaken
    rw [show left.landings = [] from htaken]
    rfl
  | case2 last tail landing rest htake hreached =>
    have htaken := takeNext?_spec h hlast
    rw [htake] at htaken
    obtain ⟨left', hin, hlandings⟩ := htaken
    rw [hlandings, List.dropWhile_cons]
    simp only [UInt32.not_lt.2 hreached, decide_false, Bool.false_eq_true, if_false]
    exact ⟨left', hin, rfl⟩
  | case3 last tail landing rest htake hshort ih =>
    have htaken := takeNext?_spec h hlast
    rw [htake] at htaken
    obtain ⟨left', hin, hlandings⟩ := htaken
    have hasc := h.ascending
    rw [hlandings] at hasc ⊢
    rw [List.dropWhile_cons]
    simp only [UInt32.not_le.1 hshort, decide_true, if_true]
    exact ih hin (List.pairwise_cons.1 hasc).1

theorem skipGroups?_of_none {data : Bytes} (number : UInt16) (hdata : data ≠ [])
    (h : TermData.decodeGroup? data = none) : skipGroups? number data = none := by
  rw [skipGroups?, if_neg (by simpa using hdata)]
  split
  · rfl
  next hsome =>
    rw [h] at hsome
    cases hsome

theorem skipGroups?_of_some {data : Bytes} (number : UInt16) {group : TermData.DecodedGroup}
    (h : TermData.decodeGroup? data = some group) : skipGroups? number data
      = if number ≤ group.number then some data else skipGroups? number group.rest := by
  have hlength := TermData.decodeGroup?_length h
  have hdata : ¬ data.isEmpty := by
    rw [List.isEmpty_iff]
    rintro rfl
    simp at hlength
  rw [skipGroups?, if_neg hdata]
  split
  next hnone =>
    rw [h] at hnone
    cases hnone
  next hsome =>
    rw [h] at hsome
    cases hsome
    rfl

/-- Passing over groups by their headers drops those below the number. -/
theorem skipGroups?_bytesAll {groups : List WrittenGroup} (h : ∀ group ∈ groups, group.Sound)
    (number : UInt16) : skipGroups? number (WrittenGroup.bytesAll groups)
      = some (WrittenGroup.bytesAll (groups.dropWhile fun group => group.number < number)) := by
  induction groups with
  | nil =>
    unfold skipGroups?
    rfl
  | cons group groups ih =>
    obtain ⟨hgroup, hgroups⟩ := List.forall_mem_cons.1 h
    rw [skipGroups?_of_some number (WrittenGroup.decodeGroup?_bytesAll hgroup), List.dropWhile_cons]
    dsimp only
    by_cases hreached : number ≤ group.number
    · rw [if_pos hreached]
      simp only [UInt16.not_lt.2 hreached, decide_false, Bool.false_eq_true, if_false]
    · rw [if_neg hreached, ih hgroups]
      simp only [UInt16.not_le.1 hreached, decide_true, if_true]

/-- The groups below that of a target hold only ids below it. -/
theorem landingsAll_dropWhile (groups : List WrittenGroup) (target : DocId) :
    let kept := groups.dropWhile fun group => group.number < target.group
    WrittenGroup.landingsAll kept <:+ WrittenGroup.landingsAll groups ∧
      ((WrittenGroup.landingsAll kept).dropWhile fun landing => landing.id < target)
        = (WrittenGroup.landingsAll groups).dropWhile fun landing => landing.id < target := by
  induction groups with
  | nil => exact ⟨List.suffix_rfl, rfl⟩
  | cons group groups ih =>
    by_cases hlt : group.number < target.group
    · simp only [List.dropWhile_cons, decide_eq_true hlt, if_true]
      refine ⟨ih.1.trans (List.suffix_append _ _), ih.2.trans ?_⟩
      have hbelow : ∀ landing ∈ group.landings, decide (landing.id < target) = true := by
        intro landing hlanding
        obtain ⟨entry, -, rfl⟩ := List.mem_map.1 hlanding
        exact decide_eq_true (DocId.compose_lt_of_group_lt hlt)
      exact (List.dropWhile_append_of_pos hbelow).symm
    · simp only [List.dropWhile_cons, decide_eq_false hlt, Bool.false_eq_true, if_false]
      exact ⟨List.suffix_rfl, trivial⟩

/-- Passing over the groups below that of a target skips no id at or after the target. -/
theorem passTo?_spec (h : left.In tail) (target : DocId) :
    ∃ left' tail', tail.passTo? target.group = some tail' ∧ Remaining.In left' tail' ∧
      left'.landings <:+ left.landings ∧
      (left'.landings.dropWhile fun landing => landing.id < target)
        = left.landings.dropWhile fun landing => landing.id < target := by
  unfold passTo?
  by_cases hpass : tail.body.isEmpty ∨ tail.number < target.group
  · obtain ⟨hsuffix, hsame⟩ := landingsAll_dropWhile left.groups target
    -- What is left of the open group lies below the target, as its number does.
    have hbelow : ∀ landing ∈ left.entries.map (WrittenEntry.landing left.number),
        decide (landing.id < target) = true := by
      intro landing hlanding
      obtain ⟨entry, hentry, rfl⟩ := List.mem_map.1 hlanding
      have hne : left.entries ≠ [] := List.ne_nil_of_mem hentry
      obtain ⟨first, others, hfirst⟩ := List.exists_cons_of_ne_nil hne
      have hbody : tail.body.isEmpty = false := by
        rw [h.body, hfirst]
        exact WrittenEntry.bytesAll_isEmpty (h.entries first (hfirst ▸ List.mem_cons_self))
      have hlt : tail.number < target.group := hpass.resolve_left (by simp [hbody])
      exact decide_eq_true (DocId.compose_lt_of_group_lt (h.number hne ▸ hlt))
    have hsuffix' := hsuffix.trans (List.suffix_append
      (left.entries.map (WrittenEntry.landing left.number)) (WrittenGroup.landingsAll left.groups))
    refine ⟨⟨tail.number, [], left.groups.dropWhile fun group => group.number < target.group⟩,
      ⟨tail.number, [], WrittenGroup.bytesAll (left.groups.dropWhile fun group =>
        group.number < target.group)⟩, ?_, ?_, hsuffix',
      hsame.trans (List.dropWhile_append_of_pos hbelow).symm⟩
    · rw [if_pos hpass, h.rest, skipGroups?_bytesAll h.groups]
      rfl
    · refine ⟨fun _ => rfl, rfl, rfl, nofun, fun group hgroup => ?_, ?_⟩
      · exact h.groups group ((List.dropWhile_sublist _).subset hgroup)
      · exact h.ascending.sublist hsuffix'.sublist
  · rw [if_neg hpass]
    exact ⟨left, tail, rfl, h, List.suffix_rfl, rfl⟩

end Tail

/-! ## Walks as readers of a tape -/

namespace SnapshotWalk

/-- Just these postings are left of the data of a walk, above the current id. -/
structure Ahead (walk : SnapshotWalk) (landings : List SnapshotLanding) : Prop where
  pending : ∃ left : Remaining, left.In walk.tail ∧ landings = left.landings
  above : ∀ landing ∈ landings, walk.current < landing.id

/-- After taking the first of some postings, the walk stands on it and has the others ahead. -/
theorem ahead_ofTaken {landings : List SnapshotLanding} {taken : Option (SnapshotLanding × Tail)}
    (hasc : landings.Pairwise fun a b => a.id < b.id) (h : TakenOff landings taken) :
    (ofTaken taken).landing = landings.head? ∧ (ofTaken taken).Ahead landings.tail := by
  cases taken with
  | none =>
    rw [show landings = [] from h]
    exact ⟨rfl, ⟨⟨0, [], []⟩, ⟨fun _ => rfl, rfl, rfl, nofun, nofun, .nil⟩, rfl⟩, nofun⟩
  | some result =>
    obtain ⟨landing, tail⟩ := result
    obtain ⟨left, hin, rfl⟩ := h
    exact ⟨rfl, ⟨left, hin, rfl⟩, (List.pairwise_cons.1 hasc).1⟩

/-- A walk reads the postings that are left of its data. -/
def tape : Tape SnapshotWalk SnapshotLanding where
  id := SnapshotLanding.id
  here := landing
  Ahead := Ahead
  current_eq walk := by
    show walk.current = _
    unfold SnapshotWalk.current
    cases walk.landing <;> rfl
  above h := h.above
  next := by
    rintro walk landings ⟨⟨left, hin, rfl⟩, hlast⟩
    exact ahead_ofTaken hin.ascending (Tail.takeNext?_spec hin hlast)
  rests hrest := if_pos hrest
  seek := by
    rintro walk landings target ⟨⟨left, hin, rfl⟩, hlast⟩ hrest
    obtain ⟨left', tail', hpass, hin', hsuffix, hsame⟩ := Tail.passTo?_spec hin target
    have hseek : IdStream.seek target walk = ofTaken
        ((walk.tail.passTo? target.group).bind (Tail.takeFrom? target walk.current)) := if_neg hrest
    have hlast' : ∀ landing ∈ left'.landings, walk.current < landing.id :=
      fun landing hlanding => hlast landing (hsuffix.subset hlanding)
    have htaken := Tail.takeFrom?_spec hin' target hlast'
    rw [hsame] at htaken
    rw [hseek, hpass]
    exact ahead_ofTaken (hin.ascending.sublist (List.dropWhile_sublist _)) htaken

end SnapshotWalk

/-! ## Walks as streams of hits -/

/-- The posting as a hit. -/
def SnapshotLanding.hit (landing : SnapshotLanding) : Hit :=
  ⟨landing.id, landing.occurrences.map Occurrence.position⟩

namespace SnapshotWalk

/-- The walk stands on the hit that the stream stands on, and has the same hits ahead, all of them
    above the current id. -/
def Shows (s : HitStream) (walk : SnapshotWalk) : Prop :=
  s.here = walk.landing.map SnapshotLanding.hit ∧ ∃ left : Remaining, left.In walk.tail ∧
    (∀ landing ∈ left.landings, walk.current < landing.id) ∧
      s.ahead = left.landings.map SnapshotLanding.hit

theorem Shows.current {s : HitStream} {walk : SnapshotWalk} (h : Shows s walk) :
    s.current = walk.current := by
  unfold HitStream.current SnapshotWalk.current
  rw [h.1]
  cases walk.landing <;> rfl

theorem Shows.window {s : HitStream} {walk : SnapshotWalk} (h : Shows s walk) :
    s.window = walk.occurrences.map Occurrence.position := by
  unfold HitStream.window SnapshotWalk.occurrences
  rw [h.1]
  cases walk.landing <;> rfl

/-- With the first of some postings stood on and the others ahead, the walk shows their hits. -/
theorem shows_ofAhead {landings : List SnapshotLanding} {walk : SnapshotWalk}
    (hhere : walk.landing = landings.head?) (hahead : walk.Ahead landings.tail) :
    Shows (.ofAhead (landings.map SnapshotLanding.hit)) walk := by
  obtain ⟨⟨left, hin, hleft⟩, habove⟩ := hahead
  rw [hleft] at habove
  refine ⟨?_, left, hin, habove, ?_⟩
  · rw [hhere]
    cases landings <;> rfl
  · rw [← hleft]
    cases landings <;> rfl

/-- **Walks behave like the streams of the hits that are left.** -/
def shows : Bisimulation HitStream SnapshotWalk where
  Rel := Shows
  current_eq := Shows.current
  window_eq := Shows.window
  move m s walk h := by
    have hcurrent := h.current
    obtain ⟨-, left, hin, hlast, hhits⟩ := id h
    have hahead : walk.Ahead left.landings := ⟨⟨left, hin, rfl⟩, hlast⟩
    cases m with
    | next =>
      obtain ⟨hhere, hleft⟩ := tape.next hahead
      have hshows := shows_ofAhead hhere hleft
      rw [← hhits] at hshows
      exact hshows
    | seek target =>
      by_cases hrest : (Move.seek target).rests walk.current
      · have hstream : IdStream.move (.seek target) s = s := if_pos (hcurrent ▸ hrest)
        have hwalk : IdStream.move (.seek target) walk = walk := if_pos hrest
        rwa [hstream, hwalk]
      · have hstream : IdStream.move (.seek target) s
            = .ofAhead (s.ahead.dropWhile fun hit => hit.id < target) := if_neg (hcurrent ▸ hrest)
        obtain ⟨hhere, hleft⟩ := tape.seek hahead hrest
        have hshows := shows_ofAhead hhere hleft
        rw [hstream, hhits, List.dropWhile_map]
        exact hshows

end SnapshotWalk

/-! ## Whole terms -/

/-- The groups of a term can be read back: they ascend, their numbers have 15 bits, and none of
    their entries has the id `0`. -/
structure WrittenGroup.AllSound (groups : List WrittenGroup) : Prop where
  ascending : Ascending WrittenGroup.number groups
  sound : ∀ group ∈ groups, group.Sound
  positive : ∀ landing ∈ landingsAll groups, landing.id ≠ 0

namespace WrittenGroup

variable {groups : List WrittenGroup}

/-- What was written is read back, group by group, -/
theorem holdsGroups (h : ∀ group ∈ groups, group.Sound) :
    TermData.HoldsGroups (bytesAll groups) (groups.map encoded) := by
  induction groups with
  | nil => exact .nil
  | cons group rest ih =>
    obtain ⟨hgroup, hrest⟩ := List.forall_mem_cons.1 h
    exact .cons (decodeGroup?_bytesAll hgroup) (WrittenEntry.holdsEntries hgroup.entries)
      (ih hrest)

/-- and in order. -/
theorem AllSound.ordered (h : AllSound groups) : EncodedGroup.Ordered (groups.map encoded) where
  numbers := List.pairwise_map.2 h.ascending
  members := by
    refine List.forall_mem_map.2 fun group hgroup => ?_
    exact List.pairwise_map.2 (h.sound group hgroup).ascending

theorem landingsAll_encoded (groups : List WrittenGroup) :
    EncodedGroup.landingsAll (groups.map encoded) = landingsAll groups := by
  rw [EncodedGroup.landingsAll, List.flatMap_map, landingsAll]
  refine List.flatMap_congr fun group _ => ?_
  rw [EncodedGroup.landings, encoded, List.map_map]
  rfl

theorem landingsAll_ascending (h : AllSound groups) :
    (landingsAll groups).Pairwise fun a b => a.id < b.id := by
  rw [← landingsAll_encoded]
  exact (holdsGroups h.sound).landingsAll_ascending h.ordered

/-- The hits of a term. -/
def hitsAll (h : AllSound groups) : HitList where
  hits := (landingsAll groups).map SnapshotLanding.hit
  ascending := List.pairwise_map.2 (landingsAll_ascending h)
  positive := by
    rintro hit hhit
    obtain ⟨landing, hlanding, rfl⟩ := List.mem_map.1 hhit
    exact h.positive landing hlanding

/-- Before its first move, a walk over the data of a term has all its groups left, -/
theorem in_ofData (h : AllSound groups) :
    Remaining.In ⟨0, [], groups⟩ (SnapshotWalk.ofData (bytesAll groups)).tail :=
  ⟨fun hne => absurd rfl hne, rfl, rfl, nofun, h.sound, landingsAll_ascending h⟩

/-- and these lie above where it stands. -/
theorem above_ofData (h : AllSound groups) : ∀ landing ∈ Remaining.landings ⟨0, [], groups⟩,
    (SnapshotWalk.ofData (bytesAll groups)).current < landing.id := fun landing hlanding =>
  UInt32.pos_iff_ne_zero.2 (h.positive landing hlanding)

/-- So it has all its postings ahead. -/
theorem ahead_ofData (h : AllSound groups) :
    SnapshotWalk.Ahead (.ofData (bytesAll groups)) (landingsAll groups) :=
  ⟨⟨⟨0, [], groups⟩, in_ofData h, rfl⟩, above_ofData h⟩

/-- A walk over the data of a term shows its hits. -/
theorem shows_ofData (h : AllSound groups) :
    SnapshotWalk.Shows (hitsAll h).stream (.ofData (bytesAll groups)) :=
  ⟨rfl, ⟨0, [], groups⟩, in_ofData h, above_ofData h, rfl⟩

/-- Drained, a walk over the data of a term lands on all its postings. -/
theorem drain_ofData (h : AllSound groups) :
    (IdStream.drain (SnapshotWalk.ofData (bytesAll groups))).filterMap SnapshotWalk.landing
      = landingsAll groups :=
  SnapshotWalk.tape.drain_eq (ahead_ofData h)

end WrittenGroup

/-! ## The check -/

namespace TermData

/-- **The check accepts what was written.** -/
theorem flaw?_eq_none {groups : List WrittenGroup} (h : WrittenGroup.AllSound groups) :
    flaw? (WrittenGroup.bytesAll groups) = none :=
  flaw?_eq_none_iff.2 ⟨_, WrittenGroup.holdsGroups h.sound, h.ordered⟩

end TermData
end InvertedIndex
