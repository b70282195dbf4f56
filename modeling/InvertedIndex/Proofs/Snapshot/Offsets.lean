import InvertedIndex.Proofs.Checked
import InvertedIndex.Proofs.Snapshot.TermData
import InvertedIndex.Snapshot.Files

/-!
# `Proofs.Snapshot.Offsets` — reading by offsets

A snapshot is read in place: a reader is given all the bytes and the place where to start, and says
where it stopped. Every reader in this file has a counterpart that takes a value off the front of
the bytes from the place on. The two read the same, and the reader by offsets never traps, whatever
the bytes are, as long as there are fewer than half as many bytes as there are sizes.

## Contents
- `prefixedAt`: regions;
- `TermData.decodeGroupAt`, `TermData.decodeEntryAt`, `TermData.Content.occurrencesAt`: postings;
- a lemma for each of them that ends in `_spec`;
- `decodeGroupAt_lt`, `decodeEntryAt_lt`: readers go forward, so loops over them end.
-/

namespace InvertedIndex

open Checked

/-! ## Regions -/

/-- Where the region lies whose first byte is at the offset. -/
def prefixedAt (data : Bytes) (offset : UInt64) : Checked (Option Extent) :=
  match sub? offset.toNat regionHeader with
  | none => return none
  | some place => do
    match ← readUInt32At data place with
    | none => return none
    | some length =>
      match add? offset.toNat length.toNat with
      | none => return none
      | some stop => return if stop ≤ data.length then some ⟨offset.toNat, stop⟩ else none

/-- A region is found where it is, for every offset. -/
theorem prefixedAt_spec {data : Bytes} (hdata : Addressable data) (offset : UInt64) :
    Finds (prefixedAt data offset) (regionAt? data offset.toNat) (Extent.of · data)
      (Extent.Within · data) := by
  have hoffset := offset.toNat_lt
  unfold prefixedAt regionAt?
  by_cases hshort : offset.toNat < regionHeader
  · rw [sub?_eq_none hshort, if_pos hshort]
    exact .nothing rfl rfl
  · have hplace : offset.toNat - regionHeader + 4 = offset.toNat :=
      Nat.sub_add_cancel (Nat.not_lt.1 hshort)
    obtain ⟨length?, hread, hsuffix, hbound⟩ := readUInt32At_spec data
      (offset.toNat - regionHeader) (by unfold sizeLimit; omega)
    rw [sub?_eq (Nat.not_lt.1 hshort), if_neg hshort, hsuffix, hplace]
    simp only [hread, bind, Except.bind]
    cases length? with
    | none => exact .nothing rfl rfl
    | some length =>
      have hstart : offset.toNat ≤ data.length := hplace ▸ hbound _ rfl
      have hlength := length.toNat_lt
      have hsum : add? offset.toNat length.toNat = some (offset.toNat + length.toNat) :=
        add?_eq (hdata.add_lt hstart (by omega))
      simp only [hsum, Option.map_some, take?_drop data _ _ hstart]
      split
      next hstop =>
        exact .found rfl rfl ⟨Nat.le_add_right _ _, hstop⟩
      · exact .nothing rfl rfl

/-! ## Groups -/

namespace TermData

/-- Where a group lies in the data of a term. -/
structure GroupHeader where
  number : UInt16
  /-- The place of its body. -/
  start : Nat
  /-- The place behind its body. -/
  stop : Nat

/-- The group that lies there. -/
def GroupHeader.group (data : Bytes) (header : GroupHeader) : DecodedGroup :=
  ⟨header.number, (data.take header.stop).drop header.start, data.drop header.stop⟩

/-- The length of the body of the group at a place, whose first length byte is `lead`, and the place
    behind the length. -/
def decodeLengthAt (data : Bytes) (place : Nat) (lead : UInt8) : Checked (Option (Nat × Nat)) :=
  if lead >>> 6 = 0 then do
    return some (lead.toNat, ← add place 3)
  else if lead >>> 6 = 1 then do
    match data[← add place 3]? with
    | none => return none
    | some low => return some ((lead &&& 0x3F).toNat * 0x100 + low.toNat, ← add place 4)
  else if lead >>> 6 = 2 then do
    match ← readUInt16At data (← add place 3) with
    | none => return none
    | some low => return some ((lead &&& 0x3F).toNat * 0x10000 + low.toNat, ← add place 5)
  else return none

/-- The group at a place, `none` if no whole one stands there. -/
def decodeGroupAt (data : Bytes) (place : Nat) : Checked (Option GroupHeader) := do
  match ← readUInt16At data place with
  | none => return none
  | some number =>
    match data[← add place 2]? with
    | none => return none
    | some lead =>
      match ← decodeLengthAt data place lead with
      | none => return none
      | some (length, start) =>
        match add? start length with
        | none => return none
        | some stop => return if stop ≤ data.length then some ⟨number, start, stop⟩ else none

variable {data : Bytes} {place : Nat}

theorem decodeLengthAt_spec (hdata : Addressable data) {lead : UInt8}
    (hlead : data[place + 2]? = some lead) :
    Finds (decodeLengthAt data place lead) (decodeLength? (data.drop (place + 2)))
      (fun found => (found.1, data.drop found.2))
      fun found => found.1 < 2 ^ 22 ∧ place + 3 ≤ found.2 ∧ found.2 ≤ data.length := by
  obtain ⟨hplace, hlead⟩ := List.getElem?_eq_some_iff.1 hlead
  have hadd (more : Nat) (hmore : more ≤ 5) : add place more = .ok (place + more) :=
    add_eq (hdata.add_lt (by omega) (by omega))
  have hdrop : data.drop (place + 2) = lead :: data.drop (place + 3) := by
    rw [List.drop_eq_getElem_cons hplace, hlead]
  have hhigh : (lead &&& 0x3F).toNat ≤ 0x3F := by
    rw [UInt8.toNat_and]
    exact Nat.and_le_right
  unfold decodeLengthAt decodeLength?
  rw [hdrop]
  simp only [hadd 3 (by omega), hadd 4 (by omega), hadd 5 (by omega), bind, Except.bind]
  -- The length has one byte, two or three.
  split
  · have hlow := lead.toNat_lt
    exact .found rfl rfl ⟨by dsimp only; omega, Nat.le_refl _, hplace⟩
  split
  · rw [readUInt8?_drop]
    cases hbyte : data[place + 3]? with
    | none => exact .nothing rfl rfl
    | some low =>
      obtain ⟨hlt, -⟩ := List.getElem?_eq_some_iff.1 hbyte
      have hlow := low.toNat_lt
      exact .found rfl rfl ⟨by dsimp only; omega, by dsimp only; omega, hlt⟩
  split
  · obtain ⟨low?, hread, hsuffix, hbound⟩ := readUInt16At_spec data (place + 3)
      (hdata.add_lt (by omega) (by omega))
    rw [hread, hsuffix]
    cases low? with
    | none => exact .nothing rfl rfl
    | some low =>
      have hlow := low.toNat_lt
      exact .found rfl rfl ⟨by dsimp only; omega, by dsimp only; omega, hbound _ rfl⟩
  · exact .nothing rfl rfl

/-- A group is found where it is, and its body lies within the data. -/
theorem decodeGroupAt_spec (hdata : Addressable data) (hplace : place ≤ data.length) :
    Finds (decodeGroupAt data place) (decodeGroup? (data.drop place)) (GroupHeader.group data)
      fun header => place + 3 ≤ header.start ∧ header.start ≤ header.stop ∧
        header.stop ≤ data.length := by
  obtain ⟨number?, hread, hsuffix, hbound⟩ := readUInt16At_spec data place
    (hdata.add_lt hplace (by omega))
  unfold decodeGroupAt decodeGroup?
  rw [hread, hsuffix]
  simp only [bind, Except.bind]
  cases number? with
  | none => exact .nothing rfl rfl
  | some number =>
    simp only [Option.map_some, add_eq (hdata.add_lt hplace (by omega : 2 < 2 ^ 63))]
    cases hlead : data[place + 2]? with
    | none =>
      refine .nothing rfl ?_
      rw [List.drop_eq_nil_of_le (List.getElem?_eq_none_iff.1 hlead)]
      rfl
    | some lead =>
      obtain ⟨found?, hfound, hlength, hfits⟩ := decodeLengthAt_spec hdata hlead
      simp only [hfound, hlength]
      cases found? with
      | none => exact .nothing rfl rfl
      | some found =>
        obtain ⟨length, start⟩ := found
        obtain ⟨hsmall, hstart, hstop⟩ := hfits _ rfl
        simp only [Option.map_some, add?_eq (hdata.add_lt hstop (by omega : length < 2 ^ 63)),
          take?_drop data start length hstop]
        split
        next hwhole =>
          exact .found rfl rfl ⟨hstart, Nat.le_add_right _ _, hwhole⟩
        · exact .nothing rfl rfl

/-! ## Entries -/

/-- The bare value behind a header with the given control code, and the place behind it. -/
def decodeBareAt (data : Bytes) (code : UInt16) (place : Nat) : Checked (Option (Int32 × Nat)) :=
  if code ≤ 4 then return some (code.toUInt32.toInt32, place)
  else if code = 5 then do
    match data[place]? with
    | none => return none
    | some value => return some (value.toUInt32.toInt32, ← add place 1)
  else if code = 6 then do
    match ← readUInt16At data place with
    | none => return none
    | some value => return some (value.toUInt32.toInt32, ← add place 2)
  else do
    match ← readUInt32At data place with
    | none => return none
    | some value => return some (value.toInt32, ← add place 4)

/-- The length of the list behind a header with the given control code, and its place. -/
def decodeSpanAt (data : Bytes) (code : UInt16) (place : Nat) : Checked (Option (Nat × Nat)) :=
  if code &&& 7 = 0 then do
    match ← readUInt32At data place with
    | none => return none
    | some stored => return some (← add stored.toNat 1, ← add place 4)
  else return some ((code &&& 7).toNat + 1, place)

/-- The content behind a header with the given control code, and the place behind it. -/
def decodeContentAt (data : Bytes) (code : UInt16) (place : Nat) :
    Checked (Option (Content × Nat)) :=
  if code &&& 8 ≠ 0 then do
    match ← decodeSpanAt data code place with
    | none => return none
    | some (length, start) =>
      match add? start length with
      | none => return none
      | some next => return (slice? data start next).map fun list => (.list list, next)
  else do
    return (← decodeBareAt data code place).map fun found => (.value found.1, found.2)

/-- An entry, and the place behind it. -/
structure PlacedEntry where
  member : UInt16
  content : Content
  next : Nat

/-- The entry at a place, `none` if it runs past `stop`. -/
def decodeEntryAt (data : Bytes) (place stop : Nat) : Checked (Option PlacedEntry) :=
  match slice? data 0 stop with
  | none => return none
  | some data => do
    match ← readUInt16At data place with
    | none => return none
    | some header =>
      return (← decodeContentAt data (header &&& 0xF) (← add place 2)).map fun found =>
        ⟨header >>> 4, found.1, found.2⟩

/-- A list is small enough for memory. -/
def Content.Fits : Content → Prop
  | .value _ => True
  | .list bytes => Addressable bytes

/-- The entry as it stands at the front of a body. -/
def PlacedEntry.entry (data : Bytes) (stop : Nat) (placed : PlacedEntry) : DecodedEntry :=
  ⟨placed.member, placed.content, (data.take stop).drop placed.next⟩

/-- A bare value is found where it is. -/
theorem decodeBareAt_spec (hdata : Addressable data) (hplace : place ≤ data.length) {code : UInt16}
    (hcode : ¬ code &&& 8 ≠ 0) :
    Finds (decodeBareAt data code place) (decodeContent? code (data.drop place))
      (fun found => (Content.value found.1, data.drop found.2))
      fun found => place ≤ found.2 ∧ found.2 ≤ data.length := by
  have hadd (more : Nat) (hmore : more ≤ 4) : add place more = .ok (place + more) :=
    add_eq (hdata.add_lt hplace (by omega))
  unfold decodeBareAt decodeContent?
  rw [if_neg hcode]
  simp only [hadd 1 (by omega), hadd 2 (by omega), hadd 4 (by omega), bind, Except.bind]
  split
  · exact .found rfl rfl ⟨Nat.le_refl _, hplace⟩
  split
  · rw [readUInt8?_drop]
    cases hbyte : data[place]? with
    | none => exact .nothing rfl rfl
    | some value =>
      exact .found rfl rfl ⟨Nat.le_add_right _ _, (List.getElem?_eq_some_iff.1 hbyte).1⟩
  split
  · obtain ⟨value?, hread, hsuffix, hbound⟩ := readUInt16At_spec data place
      (hdata.add_lt hplace (by omega))
    rw [hread, hsuffix]
    cases value? with
    | none => exact .nothing rfl rfl
    | some value =>
      exact .found rfl rfl ⟨Nat.le_add_right _ _, hbound _ rfl⟩
  · obtain ⟨value?, hread, hsuffix, hbound⟩ := readUInt32At_spec data place
      (hdata.add_lt hplace (by omega))
    rw [hread, hsuffix]
    cases value? with
    | none => exact .nothing rfl rfl
    | some value =>
      exact .found rfl rfl ⟨Nat.le_add_right _ _, hbound _ rfl⟩

/-- The end of a list is found where it is. -/
theorem decodeSpanAt_spec (hdata : Addressable data) (hplace : place ≤ data.length) {code : UInt16}
    (hcode : code &&& 8 ≠ 0) :
    ∃ found?, decodeSpanAt data code place = .ok found? ∧
      decodeContent? code (data.drop place)
        = found?.bind (fun found => (slice? data found.2 (found.2 + found.1)).map fun list =>
            (Content.list list, data.drop (found.2 + found.1))) ∧
      ∀ found ∈ found?, found.1 ≤ 2 ^ 32 ∧ place ≤ found.2 ∧ found.2 ≤ data.length := by
  have htake (start length : Nat) (hstart : start ≤ data.length) :
      Bytes.mapRead Content.list (Bytes.take? length (data.drop start))
        = (slice? data start (start + length)).map fun list =>
            (Content.list list, data.drop (start + length)) := by
    rw [take?_drop data start length hstart, slice?]
    simp only [Nat.le_add_right, true_and]
    split <;> rfl
  unfold decodeSpanAt decodeContent?
  rw [if_pos hcode]
  split
  · obtain ⟨stored?, hread, hsuffix, hbound⟩ := readUInt32At_spec data place
      (hdata.add_lt hplace (by omega))
    rw [hread, hsuffix]
    cases stored? with
    | none =>
      refine ⟨none, rfl, rfl, ?_⟩
      rintro found ⟨⟩
    | some stored =>
      have hstored := stored.toNat_lt
      have hstop : place + 4 ≤ data.length := hbound _ rfl
      simp only [bind, Except.bind, add_eq (hdata.add_lt hplace (by omega : 4 < 2 ^ 63)),
        add_eq (by unfold sizeLimit; omega : stored.toNat + 1 < sizeLimit)]
      refine ⟨_, rfl, htake _ _ hstop, ?_⟩
      rintro found ⟨⟩
      exact ⟨hstored, Nat.le_add_right _ _, hstop⟩
  · have hcode : (code &&& 7).toNat ≤ 7 := by
      rw [UInt16.toNat_and]
      exact Nat.and_le_right
    refine ⟨_, rfl, htake _ _ hplace, ?_⟩
    rintro found ⟨⟩
    exact ⟨by dsimp only; omega, Nat.le_refl _, hplace⟩

theorem decodeContentAt_spec (hdata : Addressable data) (hplace : place ≤ data.length)
    (code : UInt16) :
    Finds (decodeContentAt data code place) (decodeContent? code (data.drop place))
      (fun found => (found.1, data.drop found.2))
      fun found => found.1.Fits ∧ place ≤ found.2 ∧ found.2 ≤ data.length := by
  unfold decodeContentAt
  split
  next hcode =>
    obtain ⟨found?, hspan, hlist, hfits⟩ := decodeSpanAt_spec hdata hplace hcode
    rw [hlist, hspan]
    cases found? with
    | none => exact .nothing rfl rfl
    | some found =>
      obtain ⟨length, start⟩ := found
      obtain ⟨hlength, hstart, hstop⟩ := hfits _ rfl
      simp only [bind, Except.bind, add?_eq (hdata.add_lt hstop (by omega : length < 2 ^ 63)),
        Option.bind_some]
      refine ⟨_, rfl, by rw [Option.map_map]; rfl, ?_⟩
      intro found hfound
      obtain ⟨list, hslice, rfl⟩ := Option.map_eq_some_iff.1 hfound
      unfold slice? at hslice
      split at hslice
      next hwhole =>
        cases hslice
        exact ⟨hdata.of ⟨start, start + length⟩, by dsimp only; omega, hwhole.2⟩
      · cases hslice
  next hcode =>
    obtain ⟨found?, hbare, hvalue, hfits⟩ := decodeBareAt_spec hdata hplace hcode
    rw [hvalue, hbare]
    refine ⟨_, rfl, by rw [Option.map_map]; rfl, ?_⟩
    intro found hfound
    obtain ⟨value, hvalue, rfl⟩ := Option.map_eq_some_iff.1 hfound
    exact ⟨trivial, hfits value hvalue⟩

/-- An entry is found where it is, and does not run past the end of its body. -/
theorem decodeEntryAt_spec (hdata : Addressable data) {stop : Nat} (hplace : place ≤ stop)
    (hstop : stop ≤ data.length) :
    Finds (decodeEntryAt data place stop) (decodeMember? ((data.take stop).drop place))
      (PlacedEntry.entry data stop)
      fun placed => placed.content.Fits ∧ place + 2 ≤ placed.next ∧ placed.next ≤ stop := by
  have hlength : (data.take stop).length = stop := by
    rw [List.length_take]
    omega
  have hwindow : Addressable (data.take stop) := by
    unfold Addressable at hdata ⊢
    omega
  unfold decodeEntryAt decodeMember?
  rw [slice?_eq (Nat.zero_le _) hstop, List.drop_zero]
  obtain ⟨header?, hread, hsuffix, hbound⟩ := readUInt16At_spec (data.take stop) place
    (hwindow.add_lt (by omega) (by omega))
  simp only [hread, hsuffix, bind, Except.bind]
  cases header? with
  | none => exact .nothing rfl rfl
  | some header =>
    have hbody : place + 2 ≤ (data.take stop).length := hbound _ rfl
    have hadd : add place 2 = .ok (place + 2) := add_eq (hwindow.add_lt (by omega) (by omega))
    obtain ⟨found?, hcontent, hfound, hfits⟩ :=
      decodeContentAt_spec hwindow hbody (header &&& 0xF)
    simp only [Option.map_some, hadd, hcontent, hfound]
    refine ⟨_, rfl, by cases found? <;> rfl, ?_⟩
    intro placed hplaced
    obtain ⟨found, hmem, rfl⟩ := Option.map_eq_some_iff.1 hplaced
    obtain ⟨hlist, hstart, hend⟩ := hfits found hmem
    exact ⟨hlist, hstart, hlength ▸ hend⟩

/-! ## Lists -/

/-- The value of the occurrence whose word has the given width code, and its width. -/
def decodeWideAt (list : Bytes) (code : UInt16) (place : Nat) : Checked (Option (Int32 × Nat)) :=
  if code = 0 then return some (0, 0)
  else if code = 1 then return list[place]?.map fun value => (value.toUInt32.toInt32, 1)
  else if code = 2 then do
    return (← readUInt16At list place).map fun value => (value.toUInt32.toInt32, 2)
  else do
    return (← readUInt32At list place).map fun value => (value.toInt32, 4)

/-- The occurrence at a place, and the place behind it. -/
def decodeOccurrenceAt (list : Bytes) (place : Nat) : Checked (Option (Occurrence × Nat)) := do
  match ← readUInt16At list place with
  | none => return none
  | some word =>
    let place ← add place 2
    match ← decodeWideAt list (word >>> 14) place with
    | none => return none
    | some (value, width) =>
      return some (⟨word &&& largestPosition, value⟩, ← add place width)

/-- Reading an occurrence goes forward. -/
theorem decodeOccurrenceAt_lt {list : Bytes} {next : Nat} {occurrence : Occurrence}
    (h : decodeOccurrenceAt list place = .ok (some (occurrence, next))) : place < next := by
  unfold decodeOccurrenceAt at h
  obtain ⟨word, -, h⟩ := bind_eq_some h rfl
  obtain ⟨place', hplace, h⟩ := bind_eq_ok.1 h
  obtain ⟨⟨value, width⟩, -, h⟩ := bind_eq_some h rfl
  obtain ⟨next', hnext, h⟩ := bind_eq_ok.1 h
  cases h
  have hword := add_eq_ok hplace
  have hvalue := add_eq_ok hnext
  omega

/-- The occurrences of a list from a place on. -/
def decodeListFrom (list : Bytes) (place : Nat) : Checked (Option (List Occurrence)) :=
  if place < list.length then
    match _h : decodeOccurrenceAt list place with
    | .error trap => .error trap
    | .ok none => return none
    | .ok (some (occurrence, next)) => do
      return (← decodeListFrom list next).map (occurrence :: ·)
  else return some []
termination_by list.length - place
decreasing_by
  have := decodeOccurrenceAt_lt _h
  omega

/-- The occurrences of an entry. -/
def Content.occurrencesAt : Content → Checked (Option (List Occurrence))
  | .value _ => return some []
  | .list bytes => decodeListFrom bytes 0

/-- The value of an occurrence is found where it is. -/
theorem decodeWideAt_spec {list : Bytes} (hlist : Addressable list) (hplace : place ≤ list.length)
    (code : UInt16) :
    Finds (decodeWideAt list code place) (decodeValue? code (list.drop place))
      (fun found => (found.1, list.drop (place + found.2)))
      fun found => found.2 ≤ 4 ∧ place + found.2 ≤ list.length := by
  unfold decodeWideAt decodeValue?
  split
  · exact .found rfl rfl ⟨by decide, hplace⟩
  split
  · rw [readUInt8?_drop]
    cases hbyte : list[place]? with
    | none => exact .nothing rfl rfl
    | some value =>
      exact .found rfl rfl ⟨by dsimp only; omega, (List.getElem?_eq_some_iff.1 hbyte).1⟩
  split
  · obtain ⟨value?, hread, hsuffix, hbound⟩ := readUInt16At_spec list place
      (hlist.add_lt hplace (by omega))
    rw [hread, hsuffix]
    cases value? with
    | none => exact .nothing rfl rfl
    | some value =>
      exact .found rfl rfl ⟨by dsimp only; omega, hbound _ rfl⟩
  · obtain ⟨value?, hread, hsuffix, hbound⟩ := readUInt32At_spec list place
      (hlist.add_lt hplace (by omega))
    rw [hread, hsuffix]
    cases value? with
    | none => exact .nothing rfl rfl
    | some value =>
      exact .found rfl rfl ⟨by dsimp only; omega, hbound _ rfl⟩

/-- An occurrence is found where it is. -/
theorem decodeOccurrenceAt_spec {list : Bytes} (hlist : Addressable list)
    (hplace : place ≤ list.length) :
    Finds (decodeOccurrenceAt list place) (decodeOccurrence? (list.drop place))
      (fun found => (found.1, list.drop found.2)) fun found => found.2 ≤ list.length := by
  obtain ⟨word?, hread, hsuffix, hbound⟩ := readUInt16At_spec list place
    (hlist.add_lt hplace (by omega))
  unfold decodeOccurrenceAt decodeOccurrence?
  simp only [hread, hsuffix, bind, Except.bind]
  cases word? with
  | none => exact .nothing rfl rfl
  | some word =>
    have hvalue : place + 2 ≤ list.length := hbound _ rfl
    have hadd : add place 2 = .ok (place + 2) := add_eq (hlist.add_lt hplace (by omega))
    obtain ⟨found?, hwide, hfound, hfits⟩ := decodeWideAt_spec hlist hvalue (word >>> 14)
    simp only [Option.map_some, hadd, hwide, hfound]
    cases found? with
    | none => exact .nothing rfl rfl
    | some found =>
      obtain ⟨value, width⟩ := found
      obtain ⟨hwidth, hend⟩ := hfits _ rfl
      have hnext : add (place + 2) width = .ok (place + 2 + width) :=
        add_eq (hlist.add_lt hvalue (by omega))
      simp only [hnext]
      exact .found rfl rfl hend

/-- **A list is read as it stands, to its end.** -/
theorem decodeListFrom_spec {list : Bytes} (hlist : Addressable list)
    (hplace : place ≤ list.length) :
    decodeListFrom list place = .ok (decodeList? (list.drop place)) := by
  fun_induction decodeListFrom list place with
  | case1 place hlt trap hread =>
    exact absurd hread (decodeOccurrenceAt_spec hlist hplace).ne_error
  | case2 place hlt hread =>
    have hsuffix := (decodeOccurrenceAt_spec hlist hplace).eq_none hread
    have hleft : list.drop place ≠ [] := List.drop_eq_nil_iff.not.2 (Nat.not_le.2 hlt)
    rw [decodeList?_of_none hleft hsuffix]
    rfl
  | case3 place hlt occurrence next hread ih =>
    obtain ⟨hsuffix, hnext⟩ := (decodeOccurrenceAt_spec hlist hplace).eq_some hread
    rw [decodeList?_of_some hsuffix, ih hnext]
    rfl
  | case4 place hend =>
    rw [List.drop_eq_nil_of_le (Nat.not_lt.1 hend), decodeList?]
    rfl

/-- The occurrences of an entry are those that its bytes hold. -/
theorem Content.occurrencesAt_spec {content : Content} (h : content.Fits) :
    content.occurrencesAt = .ok content.occurrences? := by
  cases content with
  | value => rfl
  | list bytes => exact decodeListFrom_spec h (Nat.zero_le _)

/-! ## Going forward

However the data reads, a reader stops behind where it started. -/

theorem decodeLengthAt_le {lead : UInt8} {length start : Nat}
    (h : decodeLengthAt data place lead = .ok (some (length, start))) : place + 3 ≤ start := by
  unfold decodeLengthAt at h
  split at h
  · obtain ⟨stop, hstop, h⟩ := bind_eq_ok.1 h
    cases h
    exact Nat.le_of_eq (add_eq_ok hstop)
  split at h
  · obtain ⟨low, -, h⟩ := bind_eq_ok.1 h
    split at h
    · cases h
    · obtain ⟨stop, hstop, h⟩ := bind_eq_ok.1 h
      cases h
      have := add_eq_ok hstop
      omega
  split at h
  · obtain ⟨low, -, h⟩ := bind_eq_ok.1 h
    obtain ⟨value, -, h⟩ := bind_eq_some h rfl
    obtain ⟨stop, hstop, h⟩ := bind_eq_ok.1 h
    cases h
    have := add_eq_ok hstop
    omega
  · cases h

/-- A group lies behind its place, within the data. -/
theorem decodeGroupAt_lt {header : GroupHeader} (h : decodeGroupAt data place = .ok (some header)) :
    place < header.stop ∧ header.stop ≤ data.length := by
  unfold decodeGroupAt at h
  obtain ⟨number, -, h⟩ := bind_eq_some h rfl
  obtain ⟨leadPlace, -, h⟩ := bind_eq_ok.1 h
  split at h
  · cases h
  obtain ⟨⟨length, start⟩, hfound, h⟩ := bind_eq_some h rfl
  have hstart := decodeLengthAt_le hfound
  dsimp only at h
  split at h
  · cases h
  next stop hstop =>
    have hsum := add?_eq_some hstop
    split at h
    next hwhole =>
      cases h
      exact ⟨by dsimp only; omega, hwhole⟩
    · cases h

theorem decodeBareAt_le {code : UInt16} {value : Int32} {next : Nat}
    (h : decodeBareAt data code place = .ok (some (value, next))) : place ≤ next := by
  unfold decodeBareAt at h
  split at h
  · cases h
    exact Nat.le_refl _
  split at h
  · split at h
    · cases h
    · obtain ⟨stop, hstop, h⟩ := bind_eq_ok.1 h
      cases h
      exact Nat.le.intro (add_eq_ok hstop)
  split at h
  · obtain ⟨value, -, h⟩ := bind_eq_some h rfl
    obtain ⟨stop, hstop, h⟩ := bind_eq_ok.1 h
    cases h
    exact Nat.le.intro (add_eq_ok hstop)
  · obtain ⟨value, -, h⟩ := bind_eq_some h rfl
    obtain ⟨stop, hstop, h⟩ := bind_eq_ok.1 h
    cases h
    exact Nat.le.intro (add_eq_ok hstop)

theorem decodeSpanAt_le {code : UInt16} {length start : Nat}
    (h : decodeSpanAt data code place = .ok (some (length, start))) : place ≤ start := by
  unfold decodeSpanAt at h
  split at h
  · obtain ⟨stored, -, h⟩ := bind_eq_some h rfl
    obtain ⟨length', -, h⟩ := bind_eq_ok.1 h
    obtain ⟨start', hstart, h⟩ := bind_eq_ok.1 h
    cases h
    exact Nat.le.intro (add_eq_ok hstart)
  · cases h
    exact Nat.le_refl _

theorem decodeContentAt_le {code : UInt16} {content : Content} {next : Nat}
    (h : decodeContentAt data code place = .ok (some (content, next))) : place ≤ next := by
  unfold decodeContentAt at h
  split at h
  · obtain ⟨⟨length, start⟩, hfound, h⟩ := bind_eq_some h rfl
    have hstart := decodeSpanAt_le hfound
    dsimp only at h
    split at h
    · cases h
    next stop hstop =>
      have hsum := add?_eq_some hstop
      obtain ⟨list, -, hlist⟩ := Option.map_eq_some_iff.1 (Except.ok.inj h)
      cases hlist
      omega
  · obtain ⟨found?, hfound, h⟩ := bind_eq_ok.1 h
    obtain ⟨⟨value, next'⟩, rfl, hvalue⟩ := Option.map_eq_some_iff.1 (Except.ok.inj h)
    cases hvalue
    exact decodeBareAt_le hfound

/-- What stands behind an entry lies behind its place. -/
theorem decodeEntryAt_lt {stop : Nat} {placed : PlacedEntry}
    (h : decodeEntryAt data place stop = .ok (some placed)) : place < placed.next := by
  unfold decodeEntryAt at h
  split at h
  · cases h
  obtain ⟨header, -, h⟩ := bind_eq_some h rfl
  obtain ⟨body, hbody, h⟩ := bind_eq_ok.1 h
  obtain ⟨found?, hfound, h⟩ := bind_eq_ok.1 h
  obtain ⟨found, rfl, rfl⟩ := Option.map_eq_some_iff.1 (Except.ok.inj h)
  have hheader := add_eq_ok hbody
  have hcontent := decodeContentAt_le hfound
  dsimp only
  omega

end TermData

end InvertedIndex
