import InvertedIndex.Proofs.Snapshot.Offsets
import InvertedIndex.Proofs.Snapshot.Walk

/-!
# `Proofs.Snapshot.Recovery` — the postings of a term found where they were written

Groups are written one behind the other, and so are the entries of a group. Read in place, each of
them is found where it was written, with all it was written with, and what stands behind it is
sought exactly where the next one starts. It does not matter what stands in front of the groups and
what behind them, and it does not matter either what stands behind the entries of a body.

## Contents
- `TermData.Content.Tells`: what an entry tells of its occurrences;
- `TermData.EntriesAt`, `TermData.GroupsAt`: entries and groups that are found from a place on;
- `WrittenGroup.Codable`: what can be written of a group;
- `decodeEntryAt_written`, `decodeGroupAt_written`: an entry and a group are found;
- `groups_recovered`: all of them are.
-/

namespace InvertedIndex

open Checked

namespace TermData

/-! ## What is found -/

/-- The occurrences that an entry tells of. A lone one at position `0` is a bare value, without a
    list; all others are those of the list. -/
inductive Content.Tells : Content → List Occurrence → Prop where
  | bare (value : Int32) : Tells (.value value) [⟨0, value⟩]
  | list {bytes : Bytes} {occurrences : List Occurrence}
      (lone : ∀ value, occurrences ≠ [⟨0, value⟩])
      (read : decodeListFrom bytes 0 = .ok (some occurrences)) : Tells (.list bytes) occurrences

/-- The entries are found from a place on, each one right behind the one before it. -/
inductive EntriesAt (data : Bytes) (stop : Nat) : Nat → List WrittenEntry → Prop where
  | nil (place : Nat) : EntriesAt data stop place []
  | cons {place : Nat} {entry : WrittenEntry} {rest : List WrittenEntry} {content : Content}
      (found : decodeEntryAt data place stop
        = .ok (some ⟨entry.member, content, place + entry.bytes.length⟩))
      (tells : content.Tells entry.occurrences)
      (behind : EntriesAt data stop (place + entry.bytes.length) rest) :
      EntriesAt data stop place (entry :: rest)

/-- The groups are found from a place on, each one right behind the one before it, and its entries
    are found from the start of its body to the end of it. -/
inductive GroupsAt (data : Bytes) : Nat → List WrittenGroup → Prop where
  | nil (place : Nat) : GroupsAt data place []
  | cons {place start : Nat} {group : WrittenGroup} {rest : List WrittenGroup}
      (found : decodeGroupAt data place
        = .ok (some ⟨group.number, start, place + group.bytes.length⟩))
      (body : start + (WrittenEntry.bytesAll group.entries).length = place + group.bytes.length)
      (entries : EntriesAt data (place + group.bytes.length) start group.entries)
      (behind : GroupsAt data (place + group.bytes.length) rest) :
      GroupsAt data place (group :: rest)

end TermData

/-! ## What can be written -/

/-- The member number has 12 bits, each position 14, and there is an occurrence. -/
structure WrittenEntry.Codable (entry : WrittenEntry) : Prop where
  member : entry.member.toNat < 4096
  nonempty : entry.occurrences ≠ []
  positions : ∀ occurrence ∈ entry.occurrences, occurrence.position ≤ largestPosition

/-- The entries can be written, and their body is no larger than a group may be. -/
structure WrittenGroup.Codable (group : WrittenGroup) : Prop where
  entries : ∀ entry ∈ group.entries, entry.Codable
  size : (WrittenEntry.bytesAll group.entries).length ≤ TermData.maxGroupBytes

instance (entry : WrittenEntry) : Decidable entry.Codable :=
  decidable_of_iff (entry.member.toNat < 4096 ∧ entry.occurrences ≠ [] ∧
      ∀ occurrence ∈ entry.occurrences, occurrence.position ≤ largestPosition)
    ⟨fun h => ⟨h.1, h.2.1, h.2.2⟩, fun h => ⟨h.member, h.nonempty, h.positions⟩⟩

instance (group : WrittenGroup) : Decidable group.Codable :=
  decidable_of_iff ((∀ entry ∈ group.entries, entry.Codable) ∧
      (WrittenEntry.bytesAll group.entries).length ≤ TermData.maxGroupBytes)
    ⟨fun h => ⟨h.1, h.2⟩, fun h => ⟨h.entries, h.size⟩⟩

namespace TermData

/-- A list is not longer than what is written for it, apart from the lone occurrence of a bare
    value. -/
theorem encodeEntry_length_ge (member : UInt16) (occurrences : List Occurrence) :
    (occurrences.flatMap encodeOccurrence).length
      ≤ (encodeEntry member occurrences).length + 6 := by
  have hlist (header : UInt16) : (occurrences.flatMap encodeOccurrence).length
      ≤ (encodeList header occurrences).length + 6 := by
    unfold encodeList
    dsimp only
    split
    all_goals
      simp only [List.length_append]
      omega
  unfold encodeEntry
  split
  next position value =>
    split
    · have hlone := encodeOccurrences_length_le [⟨position, value⟩]
      exact Nat.le_trans hlone (Nat.le_add_left 6 _)
    · exact hlist _
  · exact hlist _

/-! ## Entries -/

/-- Occurrences are read back from their list. -/
theorem decodeListFrom_encode {occurrences : List Occurrence}
    (hpositions : ∀ occurrence ∈ occurrences, occurrence.position ≤ largestPosition)
    (hsize : Addressable (occurrences.flatMap encodeOccurrence)) :
    decodeListFrom (occurrences.flatMap encodeOccurrence) 0 = .ok (some occurrences) := by
  have hstored : occurrences.map Occurrence.stored = occurrences.map id :=
    List.map_congr_left fun occurrence h => Occurrence.stored_eq (hpositions occurrence h)
  rw [decodeListFrom_spec hsize (Nat.zero_le _), List.drop_zero, decodeList?_encode, hstored,
    List.map_id]

theorem contentOf_tells {occurrences : List Occurrence}
    (hpositions : ∀ occurrence ∈ occurrences, occurrence.position ≤ largestPosition)
    (hsize : Addressable (occurrences.flatMap encodeOccurrence)) :
    (contentOf occurrences).Tells occurrences := by
  have hread := decodeListFrom_encode hpositions hsize
  rcases occurrences with _ | ⟨⟨position, value⟩, _ | ⟨second, others⟩⟩
  · exact .list (by simp) hread
  · by_cases hzero : position = 0
    · subst hzero
      exact .bare value
    · rw [contentOf, if_neg hzero]
      exact .list (by simp [hzero]) hread
  · exact .list (by simp) hread

variable {data back : Bytes} {place stop : Nat}

/-- **An entry is found** where it was written, and what stands behind it is sought right behind its
    bytes. -/
theorem decodeEntryAt_written {entry : WrittenEntry} (hentry : entry.Sound)
    (hdata : Addressable data) (hplace : place ≤ stop) (hstop : stop ≤ data.length)
    (h : (data.take stop).drop place = entry.bytes ++ back) :
    decodeEntryAt data place stop
        = .ok (some ⟨entry.member, contentOf entry.occurrences, place + entry.bytes.length⟩) ∧
      place + entry.bytes.length ≤ stop ∧
      (data.take stop).drop (place + entry.bytes.length) = back := by
  have hread : decodeMember? ((data.take stop).drop place)
      = some ⟨entry.member, contentOf entry.occurrences, back⟩ := by
    rw [h]
    exact decodeMember?_encodeEntry hentry.member hentry.writable back
  obtain ⟨⟨member, content, next⟩, hfound, hview, -, -, hnext⟩ :=
    (decodeEntryAt_spec hdata hplace hstop).ok_some hread
  obtain ⟨rfl, rfl, hback⟩ := DecodedEntry.mk.inj hview
  -- What is left behind the entry says how far it reaches.
  have hall := congrArg List.length h
  have hleft := congrArg List.length hback
  dsimp only at hnext hleft
  simp only [List.length_drop, List.length_take, List.length_append] at hall hleft
  obtain rfl : next = place + entry.bytes.length := by omega
  exact ⟨hfound, hnext, hback⟩

/-- Entries are found one behind the other, whatever stands behind them. -/
theorem entriesAt_written {entries : List WrittenEntry} (hdata : Addressable data)
    (hentries : ∀ entry ∈ entries, entry.Codable)
    (hsize : (WrittenEntry.bytesAll entries).length ≤ maxGroupBytes) (hplace : place ≤ stop)
    (hstop : stop ≤ data.length)
    (h : (data.take stop).drop place = WrittenEntry.bytesAll entries ++ back) :
    EntriesAt data stop place entries := by
  have hmax : maxGroupBytes = 0x3FFFFF := rfl
  induction entries generalizing place with
  | nil => exact .nil place
  | cons entry rest ih =>
    obtain ⟨hentry, hrest⟩ := List.forall_mem_cons.1 hentries
    rw [WrittenEntry.bytesAll, List.flatMap_cons] at h hsize
    rw [List.append_assoc] at h
    rw [List.length_append] at hsize
    have hlist : (entry.occurrences.flatMap encodeOccurrence).length ≤ entry.bytes.length + 6 :=
      encodeEntry_length_ge entry.member entry.occurrences
    have hsound : entry.Sound := ⟨hentry.member, hentry.nonempty, by omega⟩
    obtain ⟨hfound, hnext, hbehind⟩ := decodeEntryAt_written hsound hdata hplace hstop h
    have hsmall : Addressable (entry.occurrences.flatMap encodeOccurrence) := by
      unfold Addressable
      omega
    exact .cons hfound (contentOf_tells hentry.positions hsmall)
      (ih hrest (Nat.le_trans (Nat.le_add_left _ _) hsize) hnext hbehind)

/-! ## Groups -/

/-- **A group is found** where it was written, with its body, and what stands behind it is sought
    right behind its bytes. -/
theorem decodeGroupAt_written {group : WrittenGroup}
    (hsize : (WrittenEntry.bytesAll group.entries).length ≤ maxGroupBytes)
    (hdata : Addressable data) (hplace : place ≤ data.length)
    (h : data.drop place = group.bytes ++ back) :
    ∃ start, decodeGroupAt data place
        = .ok (some ⟨group.number, start, place + group.bytes.length⟩) ∧
      start + (WrittenEntry.bytesAll group.entries).length = place + group.bytes.length ∧
      place + group.bytes.length ≤ data.length ∧
      (data.take (place + group.bytes.length)).drop start = WrittenEntry.bytesAll group.entries ∧
      data.drop (place + group.bytes.length) = back := by
  have hread : decodeGroup? (data.drop place)
      = some ⟨group.number, WrittenEntry.bytesAll group.entries, back⟩ := by
    rw [h]
    exact decodeGroup?_encodeGroup hsize group.number back
  obtain ⟨⟨number, start, stop⟩, hfound, hview, -, hbody, hstop⟩ :=
    (decodeGroupAt_spec hdata hplace).ok_some hread
  obtain ⟨rfl, hentries, hback⟩ := DecodedGroup.mk.inj hview
  have hall := congrArg List.length h
  have hleft := congrArg List.length hback
  have hinner := congrArg List.length hentries
  dsimp only at hbody hstop hleft hinner
  simp only [List.length_drop, List.length_take, List.length_append] at hall hleft hinner
  obtain rfl : stop = place + group.bytes.length := by omega
  exact ⟨start, hfound, by omega, hstop, hentries, hback⟩

/-- Groups are found one behind the other, with their entries. -/
theorem groupsAt_written {groups : List WrittenGroup} (hdata : Addressable data)
    (hgroups : ∀ group ∈ groups, group.Codable) (hplace : place ≤ data.length)
    (h : data.drop place = WrittenGroup.bytesAll groups ++ back) : GroupsAt data place groups := by
  induction groups generalizing place with
  | nil => exact .nil place
  | cons group rest ih =>
    obtain ⟨hgroup, hrest⟩ := List.forall_mem_cons.1 hgroups
    rw [WrittenGroup.bytesAll, List.flatMap_cons, List.append_assoc] at h
    obtain ⟨start, hfound, hbody, hstop, hentries, hbehind⟩ :=
      decodeGroupAt_written hgroup.size hdata hplace h
    refine .cons hfound hbody ?_ (ih hrest hstop hbehind)
    rw [← List.append_nil (WrittenEntry.bytesAll group.entries)] at hentries
    exact entriesAt_written hdata hgroup.entries hgroup.size (by omega) hstop hentries

/-- **What is written for a term is found where it was written**: behind any bytes and with any
    bytes behind it, each group with its number and its body, and in it each entry with its member
    number and its occurrences. The entries of a group are found too wherever else they stand in a
    region, with any bytes behind them. -/
theorem groups_recovered {groups : List WrittenGroup} (h : ∀ group ∈ groups, group.Codable)
    {front back : Bytes} (hdata : Addressable (front ++ (WrittenGroup.bytesAll groups ++ back))) :
    GroupsAt (front ++ (WrittenGroup.bytesAll groups ++ back)) front.length groups ∧
      ∀ group ∈ groups, ∀ (data behind : Bytes) (place stop : Nat), Addressable data →
        place ≤ stop → stop ≤ data.length →
        (data.take stop).drop place = WrittenEntry.bytesAll group.entries ++ behind →
        EntriesAt data stop place group.entries := by
  have hbytes : (front ++ (WrittenGroup.bytesAll groups ++ back)).drop front.length
      = WrittenGroup.bytesAll groups ++ back := List.drop_left
  refine ⟨groupsAt_written hdata h ?_ hbytes, ?_⟩
  · rw [List.length_append]
    exact Nat.le_add_right _ _
  · intro group hgroup data behind place stop hmemory hplace hstop hbytes
    exact entriesAt_written hmemory (h group hgroup).entries (h group hgroup).size hplace hstop
      hbytes

/-- A bare value and a list in one group, a list of two bytes in another. -/
theorem groups_recovered_two :
    let groups : List WrittenGroup :=
      [⟨7, [⟨3, [⟨0, -1⟩]⟩, ⟨0xABC, [⟨1, 0⟩, ⟨0x3FFF, 300⟩]⟩]⟩, ⟨9, [⟨0, [⟨5, 0⟩]⟩]⟩]
    let data : Bytes := [0xEE] ++ (WrittenGroup.bytesAll groups ++ [1, 2, 3])
    (∀ group ∈ groups, group.Codable) ∧ Addressable data ∧ GroupsAt data 1 groups := by
  intro groups data
  have hgroups : ∀ group ∈ groups, group.Codable := by decide
  have hdata : Addressable data := by decide
  exact ⟨hgroups, hdata, (groups_recovered hgroups hdata).1⟩

end TermData
end InvertedIndex
