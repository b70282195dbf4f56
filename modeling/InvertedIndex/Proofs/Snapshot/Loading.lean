import InvertedIndex.Proofs.Snapshot.ByteOrder
import InvertedIndex.Proofs.Snapshot.Check
import InvertedIndex.Proofs.Snapshot.Offsets

/-!
# `Proofs.Snapshot.Loading` — opening files by offsets

A snapshot is opened in place: of each term it is only kept where its text and its postings lie in
the files. This file has the checks of opening by offsets. Whatever the files hold, they never trap,
find what the checks find that take values off the front, and what they keep lies within the files.

## Contents
- `Checked.Agrees`: a computation refuses and accepts what a reader does;
- `TermData.flawAt`, `TermData.flawAt_spec`: the check of the postings of a term;
- `PlacedSlot`; `readSlotAt`, `readSlotsAt`, `readSlotsAt_spec`: the index of the terms;
- `globalsFaultAt`, `postingsFaultAt`: the checks of all blobs and of all postings;
- `Regions`, `PlacedImage`, `openAt`, `openAt_spec`: the files.
-/

namespace InvertedIndex

open Checked

/-! ## Computations that may refuse -/

namespace Checked

/-- The computation does not trap. It refuses for the reason that the reader does, or accepts what
    the reader does, as `view` shows it. What it accepts fits. -/
abbrev Agrees {ε α β : Type} (computed : Checked (Except ε α)) (read : Except ε β) (view : α → β)
    (fits : α → Prop) : Prop :=
  ∃ result, computed = .ok result ∧ read = result.map view ∧
    ∀ accepted, result = .ok accepted → fits accepted

variable {ε α β : Type} {computed : Checked (Except ε α)} {read : Except ε β} {view : α → β}
  {fits : α → Prop} {reason : ε} {value : α}

theorem Agrees.refused (hcomputed : computed = .ok (.error reason)) (hread : read = .error reason) :
    Agrees computed read view fits := ⟨.error reason, hcomputed, hread, nofun⟩

theorem Agrees.accepted (hcomputed : computed = .ok (.ok value)) (hread : read = .ok (view value))
    (h : fits value) : Agrees computed read view fits := by
  refine ⟨.ok value, hcomputed, hread, ?_⟩
  rintro accepted ⟨⟩
  exact h

theorem Agrees.ne_error (h : Agrees computed read view fits) {trap : Trap} :
    computed ≠ .error trap := by
  rintro rfl
  obtain ⟨result, hresult, -⟩ := h
  cases hresult

theorem Agrees.eq_error (h : Agrees computed read view fits)
    (hrefused : computed = .ok (.error reason)) : read = .error reason := by
  obtain ⟨result, hresult, hread, -⟩ := h
  cases hrefused.symm.trans hresult
  exact hread

theorem Agrees.eq_ok (h : Agrees computed read view fits) (haccepted : computed = .ok (.ok value)) :
    read = .ok (view value) ∧ fits value := by
  obtain ⟨result, hresult, hread, hfits⟩ := h
  cases haccepted.symm.trans hresult
  exact ⟨hread, hfits value rfl⟩

end Checked

/-! ## The check of the postings -/

namespace TermData

/-- The first flaw in the body of a group that ends at `stop`, from an entry on; `last` is the
    member number of the entry before. -/
def bodyFlawAt (data : Bytes) (stop : Nat) (last : Option UInt16) (place : Nat) :
    Checked (Option PostingFlaw) :=
  if place < stop then
    match _h : decodeEntryAt data place stop with
    | .error trap => .error trap
    | .ok none => return some (.badEntry place)
    | .ok (some placed) =>
      if last.any (placed.member ≤ ·) then return some (.entryOrder place)
      else do
        if (← placed.content.occurrencesAt).isNone then return some (.badList place)
        bodyFlawAt data stop (some placed.member) placed.next
  else return none
termination_by stop - place
decreasing_by
  have := decodeEntryAt_lt _h
  omega

/-- The first flaw in the data, from a group on; `last` is the number of the group before. -/
def dataFlawAt (data : Bytes) (last : Option UInt16) (place : Nat) : Checked (Option PostingFlaw) :=
  if place < data.length then
    match _h : decodeGroupAt data place with
    | .error trap => .error trap
    | .ok none => return some (.badGroup place)
    | .ok (some header) =>
      if last.any (header.number ≤ ·) then return some (.groupOrder header.number)
      else do
        match ← bodyFlawAt data header.stop none header.start with
        | some flaw => return some flaw
        | none => dataFlawAt data (some header.number) header.stop
  else return none
termination_by data.length - place
decreasing_by
  have := decodeGroupAt_lt _h
  omega

variable {data : Bytes} {stop place : Nat} {last : Option UInt16}

/-- A body is checked where it is. -/
theorem bodyFlawAt_spec (hdata : Addressable data) (hstop : stop ≤ data.length)
    (hplace : place ≤ stop) : bodyFlawAt data stop last place
      = .ok (bodyFlaw? stop last ((data.take stop).drop place)) := by
  have hlength (place : Nat) : ((data.take stop).drop place).length = stop - place := by
    rw [List.length_drop, List.length_take, Nat.min_eq_left hstop]
  fun_induction bodyFlawAt data stop last place with
  | case1 last place hlt trap hread =>
    exact absurd hread (decodeEntryAt_spec hdata hplace hstop).ne_error
  | case2 last place hlt hread =>
    have hsuffix := (decodeEntryAt_spec hdata hplace hstop).eq_none hread
    have hleft : (data.take stop).drop place ≠ [] := by
      rw [← List.length_pos_iff, hlength]
      omega
    rw [bodyFlaw?_of_none hleft hsuffix, hlength, Nat.sub_sub_self hplace]
    rfl
  | case3 last place hlt placed hread horder =>
    obtain ⟨hsuffix, -⟩ := (decodeEntryAt_spec hdata hplace hstop).eq_some hread
    rw [bodyFlaw?_of_some hsuffix, hlength, Nat.sub_sub_self hplace]
    exact congrArg Except.ok (if_pos horder).symm
  | case4 last place hlt placed hread horder ih =>
    obtain ⟨hsuffix, hlist, -, hnext⟩ := (decodeEntryAt_spec hdata hplace hstop).eq_some hread
    have hentry : decodeMember? ((data.take stop).drop place)
      = some ⟨placed.member, placed.content, (data.take stop).drop placed.next⟩ := hsuffix
    rw [bodyFlaw?_of_some hentry, hlength, Nat.sub_sub_self hplace,
      Content.occurrencesAt_spec hlist, if_neg horder]
    simp only [bind, Except.bind]
    split
    · rfl
    · exact ih hnext
  | case5 last place hend =>
    rw [List.drop_eq_nil_of_le (by rw [List.length_take]; omega), bodyFlaw?_nil]
    rfl

/-- The data is checked where it is. -/
theorem dataFlawAt_spec (hdata : Addressable data) (hplace : place ≤ data.length) :
    dataFlawAt data last place = .ok (dataFlaw? data.length last (data.drop place)) := by
  fun_induction dataFlawAt data last place with
  | case1 last place hlt trap hread =>
    exact absurd hread (decodeGroupAt_spec hdata hplace).ne_error
  | case2 last place hlt hread =>
    have hsuffix := (decodeGroupAt_spec hdata hplace).eq_none hread
    have hleft : data.drop place ≠ [] := List.drop_eq_nil_iff.not.2 (Nat.not_le.2 hlt)
    rw [dataFlaw?_of_none hleft hsuffix, List.length_drop, Nat.sub_sub_self hplace]
    rfl
  | case3 last place hlt header hread horder =>
    obtain ⟨hsuffix, -⟩ := (decodeGroupAt_spec hdata hplace).eq_some hread
    rw [dataFlaw?_of_some hsuffix]
    exact congrArg Except.ok (if_pos horder).symm
  | case4 last place hlt header hread horder ih =>
    obtain ⟨hsuffix, -, hbody, hstop⟩ := (decodeGroupAt_spec hdata hplace).eq_some hread
    have hgroup : decodeGroup? (data.drop place) = some ⟨header.number,
      (data.take header.stop).drop header.start, data.drop header.stop⟩ := hsuffix
    rw [dataFlaw?_of_some hgroup, if_neg horder, bodyFlawAt_spec hdata hstop hbody,
      List.length_drop, Nat.sub_sub_self hstop]
    simp only [bind, Except.bind]
    cases bodyFlaw? header.stop none ((data.take header.stop).drop header.start) with
    | none => exact ih hstop
    | some flaw => rfl
  | case5 last place hend =>
    rw [List.drop_eq_nil_of_le (Nat.not_lt.1 hend), dataFlaw?_nil]
    rfl

/-- The first flaw in the data of a term. -/
def flawAt (data : Bytes) : Checked (Option PostingFlaw) := dataFlawAt data none 0

/-- **The data of a term is checked where it is.** -/
theorem flawAt_spec (hdata : Addressable data) : flawAt data = .ok (flaw? data) :=
  dataFlawAt_spec hdata (Nat.zero_le _)

end TermData

/-! ## The index of the terms -/

/-- The text that some bytes are; bytes that are none have the empty one. -/
def textOf (name : Bytes) : String := (String.fromUTF8? ⟨name.toArray⟩).getD ""

/-- A term, by where its text lies in the index and its postings in the data. -/
structure PlacedSlot where
  name : Extent
  region : Extent
  longest : UInt32

/-- The term. -/
def PlacedSlot.slot (index data : Bytes) (placed : PlacedSlot) : Slot :=
  ⟨textOf (placed.name.of index), placed.region.of data, placed.longest⟩

/-- The term lies within the files, and its bytes are a text. -/
structure PlacedSlot.Inside (index data : Bytes) (placed : PlacedSlot) : Prop where
  name : placed.name.Within index
  region : placed.region.Within data
  text : textBytes (placed.slot index data).term = placed.name.of index

/-- Whether a text does not come behind that of the term before. -/
def misplacedAt (index : Bytes) (last : Option PlacedSlot) (text : Bytes) : Checked Bool :=
  match last with
  | none => return false
  | some last => return text ≤ (← last.name.cut index)

/-- What stands behind the text of a term, and the place behind that. -/
def readFieldsAt (index data : Bytes) (last : Option PlacedSlot) (name : Extent) (text : Bytes)
    (fields : Nat) : Checked (Except Corruption (PlacedSlot × Nat)) := do
  match ← readUInt64At index fields, ← readUInt32At index (← add fields 8) with
  | some offset, some longest =>
    match ← prefixedAt data offset with
    | none => return .error (.termRange name.start)
    | some region =>
      if ← misplacedAt index last text then return .error .termOrder
      return .ok (⟨name, region, longest⟩, ← add fields 12)
  | _, _ => return .error .truncatedEntry

/-- The term at a place, and the place behind it. -/
def readSlotAt (index data : Bytes) (last : Option PlacedSlot) (place : Nat) :
    Checked (Except Corruption (PlacedSlot × Nat)) := do
  match (← slice index place index.length).idxOf? 0 with
  | none => return .error .unterminatedTerm
  | some length =>
    let name : Extent := ⟨place, ← add place length⟩
    let text ← name.cut index
    if (String.fromUTF8? ⟨text.toArray⟩).isNone then return .error (.termEncoding place)
    readFieldsAt index data last name text (← add name.stop 1)

theorem readFieldsAt_lt {index data text : Bytes} {last : Option PlacedSlot} {name : Extent}
    {fields next : Nat} {placed : PlacedSlot}
    (h : readFieldsAt index data last name text fields = .ok (.ok (placed, next))) :
    fields < next := by
  unfold readFieldsAt at h
  obtain ⟨offset?, -, h⟩ := bind_eq_ok.1 h
  obtain ⟨longestPlace, -, h⟩ := bind_eq_ok.1 h
  obtain ⟨longest?, -, h⟩ := bind_eq_ok.1 h
  split at h
  · obtain ⟨region?, -, h⟩ := bind_eq_ok.1 h
    split at h
    · cases h
    obtain ⟨misplaced, -, h⟩ := bind_eq_ok.1 h
    split at h
    · cases h
    obtain ⟨next', hnext, h⟩ := bind_eq_ok.1 h
    cases h
    have := add_eq_ok hnext
    omega
  · cases h

/-- Reading a term goes forward. -/
theorem readSlotAt_lt {index data : Bytes} {last : Option PlacedSlot} {place next : Nat}
    {placed : PlacedSlot} (h : readSlotAt index data last place = .ok (.ok (placed, next))) :
    place < next := by
  unfold readSlotAt at h
  obtain ⟨left, -, h⟩ := bind_eq_ok.1 h
  split at h
  · cases h
  obtain ⟨stop, hstop, h⟩ := bind_eq_ok.1 h
  obtain ⟨text, -, h⟩ := bind_eq_ok.1 h
  split at h
  · cases h
  obtain ⟨fields, hfields, h⟩ := bind_eq_ok.1 h
  have hname := add_eq_ok hstop
  have hbehind := add_eq_ok hfields
  have hnext := readFieldsAt_lt h
  dsimp only at hbehind
  omega

/-- The terms of an index, from a place on; `last` is the term before. -/
def readSlotsAt (index data : Bytes) (last : Option PlacedSlot) (place : Nat) :
    Checked (Except Corruption (List PlacedSlot)) :=
  if place < index.length then
    match _h : readSlotAt index data last place with
    | .error trap => .error trap
    | .ok (.error corruption) => return .error corruption
    | .ok (.ok (placed, next)) => do
      return (← readSlotsAt index data (some placed) next).map (placed :: ·)
  else return .ok []
termination_by index.length - place
decreasing_by
  have := readSlotAt_lt _h
  omega

theorem splitZero?_eq (bytes : Bytes) : splitZero? bytes
    = (bytes.idxOf? 0).map fun stop => (bytes.take stop, bytes.drop (stop + 1)) := by
  induction bytes with
  | nil => rfl
  | cons b rest ih =>
    rw [splitZero?, List.idxOf?_cons, ih]
    by_cases hb : b = 0
    · rw [if_pos hb, if_pos (beq_iff_eq.2 hb)]
      rfl
    · rw [if_neg hb, if_neg (by simpa using hb)]
      cases rest.idxOf? 0 <;> rfl

theorem textOf_eq {name : Bytes} {text : String}
    (h : String.fromUTF8? ⟨name.toArray⟩ = some text) : textOf name = text := by
  rw [textOf, h, Option.getD_some]

theorem misplacedAt_eq {index data : Bytes} {last : Option PlacedSlot}
    (hlast : ∀ before ∈ last, before.Inside index data) (term : String) :
    misplacedAt index last (textBytes term)
      = .ok ((last.map fun before => (before.slot index data).term).any (term ≤ ·)) := by
  cases last with
  | none => rfl
  | some before =>
    have hbefore := hlast before rfl
    have horder : (textBytes term ≤ before.name.of index)
        ↔ term ≤ (before.slot index data).term := by
      rw [← hbefore.text, ← List.not_lt, textBytes_lt_iff, String.not_lt]
    simp only [misplacedAt, hbefore.name.cut_eq, bind, Except.bind, horder]
    rfl

theorem readFieldsAt_spec {index data : Bytes} (hindex : Addressable index)
    (hdata : Addressable data) {last : Option PlacedSlot}
    (hlast : ∀ before ∈ last, before.Inside index data) {name : Extent} (hname : name.Within index)
    {term : String} (hterm : String.fromUTF8? ⟨(name.of index).toArray⟩ = some term) {fields : Nat}
    (hfields : fields ≤ index.length) :
    Agrees (readFieldsAt index data last name (name.of index) fields)
      (readFields? data name.start (last.map fun before => (before.slot index data).term) term
        (index.drop fields))
      (fun found => (found.1.slot index data, index.drop found.2))
      fun found => found.1.Inside index data ∧ found.2 ≤ index.length := by
  have hadd (more : Nat) (hmore : more ≤ 12) : add fields more = .ok (fields + more) :=
    add_eq (hindex.add_lt hfields (by omega))
  have htext : textBytes term = name.of index := textBytes_eq_of_fromUTF8? hterm
  have hmisplaced : misplacedAt index last (name.of index)
      = .ok ((last.map fun before => (before.slot index data).term).any (term ≤ ·)) := by
    rw [← htext, misplacedAt_eq hlast]
  obtain ⟨offset?, hoffset, hsuffix, hbound⟩ := readUInt64At_spec index fields
    (hindex.add_lt hfields (by omega))
  obtain ⟨longest?, hlongest, hsuffix', hbound'⟩ := readUInt32At_spec index (fields + 8)
    (by rw [Nat.add_assoc]; exact hindex.add_lt hfields (by omega))
  unfold readFieldsAt readFields?
  simp only [hoffset, hlongest, hsuffix, hadd 8 (by omega), hadd 12 (by omega), bind, Except.bind]
  cases offset? with
  | none => exact .refused rfl rfl
  | some offset =>
    simp only [Option.map_some, hsuffix']
    cases longest? with
    | none => exact .refused rfl rfl
    | some longest =>
      obtain ⟨region?, hregion, hfound, hwithin⟩ := prefixedAt_spec hdata offset
      simp only [Option.map_some, hregion, hfound, hmisplaced]
      cases region? with
      | none => exact .refused rfl rfl
      | some region =>
        dsimp only [Option.map_some]
        split
        · exact .refused rfl rfl
        · refine .accepted rfl ?_ ⟨⟨hname, hwithin region rfl, ?_⟩, hbound' _ rfl⟩
          · rw [← textOf_eq hterm]
            rfl
          · show textBytes (textOf (name.of index)) = name.of index
            rw [textOf_eq hterm, htext]

/-- A term of the index is read where it is. -/
theorem readSlotAt_spec {index data : Bytes} (hindex : Addressable index) (hdata : Addressable data)
    {last : Option PlacedSlot} (hlast : ∀ before ∈ last, before.Inside index data) {place : Nat}
    (hplace : place ≤ index.length) :
    Agrees (readSlotAt index data last place)
      (readSlot? data index.length (last.map fun before => (before.slot index data).term)
        (index.drop place))
      (fun found => (found.1.slot index data, index.drop found.2))
      fun found => found.1.Inside index data ∧ found.2 ≤ index.length := by
  have hoffset : index.length - (index.drop place).length = place := by
    rw [List.length_drop, Nat.sub_sub_self hplace]
  have hleft : slice index place index.length = .ok (index.drop place) := by
    rw [slice_eq hplace (Nat.le_refl _), List.take_length]
  unfold readSlotAt readSlot?
  rw [splitZero?_eq, hoffset]
  simp only [hleft, bind, Except.bind]
  cases hstop : (index.drop place).idxOf? 0 with
  | none => exact .refused rfl rfl
  | some length =>
    obtain ⟨hlength, -⟩ := List.idxOf?_eq_some_iff.1 hstop
    rw [List.length_drop] at hlength
    have hname : (⟨place, place + length⟩ : Extent).Within index :=
      ⟨Nat.le_add_right _ _, by dsimp only; omega⟩
    have htext : (index.drop place).take length = (⟨place, place + length⟩ : Extent).of index := by
      rw [Extent.of, List.drop_take, Nat.add_sub_cancel_left]
    have hstop : add place length = .ok (place + length) := by
      refine add_eq (hindex.add_lt hplace ?_)
      unfold Addressable at hindex
      omega
    have hfields : add (place + length) 1 = .ok (place + length + 1) :=
      add_eq (hindex.add_lt hname.stop (by omega))
    simp only [hstop, hname.cut_eq, hfields, Option.map_some, List.drop_drop, htext]
    cases hterm : String.fromUTF8? ⟨((⟨place, place + length⟩ : Extent).of index).toArray⟩ with
    | none => exact .refused rfl rfl
    | some term =>
      exact readFieldsAt_spec hindex hdata hlast hname hterm (by omega)

/-- **An index is read as it stands, to its end**, and all it says of terms lies within the
    files. -/
theorem readSlotsAt_spec {index data : Bytes} (hindex : Addressable index)
    (hdata : Addressable data) {last : Option PlacedSlot}
    (hlast : ∀ before ∈ last, before.Inside index data) {place : Nat}
    (hplace : place ≤ index.length) :
    Agrees (readSlotsAt index data last place)
      (readSlots data index.length (last.map fun before => (before.slot index data).term)
        (index.drop place))
      (List.map (PlacedSlot.slot index data))
      fun slots => ∀ placed ∈ slots, placed.Inside index data := by
  fun_induction readSlotsAt index data last place with
  | case1 last place hlt trap hread =>
    exact absurd hread (readSlotAt_spec hindex hdata hlast hplace).ne_error
  | case2 last place hlt corruption hread =>
    have hsuffix := (readSlotAt_spec hindex hdata hlast hplace).eq_error hread
    have hleft : index.drop place ≠ [] := List.drop_eq_nil_iff.not.2 (Nat.not_le.2 hlt)
    refine .refused rfl ?_
    rw [readSlots_eq_readSlot? hleft, hsuffix]
    rfl
  | case3 last place hlt placed next hread ih =>
    obtain ⟨hsuffix, hinside, hnext⟩ := (readSlotAt_spec hindex hdata hlast hplace).eq_ok hread
    obtain ⟨others, hothers, hslots, hwithin⟩ := ih (by rintro before ⟨⟩; exact hinside) hnext
    have hleft : index.drop place ≠ [] := List.drop_eq_nil_iff.not.2 (Nat.not_le.2 hlt)
    refine ⟨others.map (placed :: ·), ?_, ?_, ?_⟩
    · rw [hothers]
      rfl
    · rw [readSlots_eq_readSlot? hleft, hsuffix]
      show Except.map _ (readSlots data index.length (some (placed.slot index data).term)
        (index.drop next)) = _
      rw [show readSlots data index.length (some (placed.slot index data).term) (index.drop next) = _
        from hslots]
      cases others <;> rfl
    · intro slots hresult
      obtain ⟨rest, hrest, rfl⟩ := map_eq_ok.1 hresult
      exact List.forall_mem_cons.2 ⟨hinside, hwithin rest hrest⟩
  | case4 last place hend =>
    refine .accepted rfl ?_ (List.forall_mem_nil _)
    rw [List.drop_eq_nil_of_le (Nat.not_lt.1 hend), readSlots]
    rfl

/-! ## The blobs -/

/-- The first id, counted from `id`, whose blob does not lie within the data. -/
def globalsFaultAt (data : Bytes) (id : Nat) (index : Bytes) : Checked (Option Corruption) :=
  if _h : 8 ≤ index.length then do
    let offset := (← readUInt64At (index.take 8) 0).getD 0
    if offset = 0 then globalsFaultAt data (← add id 1) (index.drop 8)
    else
      match ← prefixedAt data offset with
      | none => return some (.globalRange id)
      | some _ => globalsFaultAt data (← add id 1) (index.drop 8)
  else return none
termination_by index.length
decreasing_by all_goals
  rw [List.length_drop]
  omega

theorem globalsFault?_of_none {data index : Bytes} {id : Nat}
    (h : Bytes.readUInt64? index = none) : globalsFault? data id index = none := by
  unfold globalsFault?
  split
  · rfl
  next hsome =>
    rw [h] at hsome
    cases hsome

theorem globalsFault?_of_some {data index rest : Bytes} {id : Nat} {offset : UInt64}
    (h : Bytes.readUInt64? index = some (offset, rest)) : globalsFault? data id index =
      if offset ≠ 0 ∧ (regionAt? data offset.toNat).isNone then some (.globalRange id)
      else globalsFault? data (id + 1) rest := by
  rw [globalsFault?]
  split
  next hnone =>
    rw [h] at hnone
    cases hnone
  next hsome =>
    rw [h] at hsome
    cases hsome
    rfl

/-- The blobs are checked where they are. -/
theorem globalsFaultAt_spec {data index : Bytes} (hdata : Addressable data) {id : Nat}
    (hid : id + index.length < 2 ^ 63) :
    globalsFaultAt data id index = .ok (globalsFault? data id index) := by
  fun_induction globalsFaultAt data id index with
  | case1 id index hlong ih =>
    obtain ⟨offset, htaken, hread⟩ := readUInt64?_fixed.long index hlong
    have hread' : readUInt64At (index.take 8) 0 = .ok (some offset) := by
      obtain ⟨offset?, hoffset, hsuffix, -⟩ := readUInt64At_spec (index.take 8) 0
        (by decide)
      rw [List.drop_zero, htaken] at hsuffix
      rw [hoffset, show offset? = some offset from ?_]
      cases offset? with
      | none => cases hsuffix
      | some other => rw [(Prod.mk.inj (Option.some.inj hsuffix)).1]
    have hnext : add id 1 = .ok (id + 1) := add_eq (by unfold sizeLimit; omega)
    have hrest : id + 1 + (index.drop 8).length < 2 ^ 63 := by
      rw [List.length_drop]
      omega
    obtain ⟨extent?, hextent, hregion, -⟩ := prefixedAt_spec hdata offset
    rw [globalsFault?_of_some hread, hread']
    simp only [hnext, hextent, hregion, bind, Except.bind, Option.getD_some]
    split
    next hzero =>
      rw [if_neg fun h => h.1 hzero]
      exact ih _ hrest
    next hnonzero =>
      cases extent? with
      | none =>
        rw [if_pos ⟨hnonzero, rfl⟩]
        rfl
      | some extent =>
        rw [if_neg fun h => nomatch h.2]
        exact ih _ hrest
  | case2 id index hshort =>
    rw [globalsFault?_of_none (readUInt64?_fixed.short index (Nat.not_le.1 hshort))]
    rfl

/-! ## The postings of all terms -/

/-- The first flaw in the postings of the terms. -/
def postingsFaultAt (index data : Bytes) : List PlacedSlot → Checked (Option Corruption)
  | [] => return none
  | placed :: rest => do
    match ← TermData.flawAt (← placed.region.cut data) with
    | some flaw => return some (.postings (textOf (← placed.name.cut index)) flaw)
    | none => postingsFaultAt index data rest

theorem postingsFaultAt_spec {index data : Bytes} (hdata : Addressable data)
    {slots : List PlacedSlot} (hslots : ∀ placed ∈ slots, placed.Inside index data) :
    postingsFaultAt index data slots
      = .ok (postingsFault? (slots.map (PlacedSlot.slot index data))) := by
  induction slots with
  | nil => rfl
  | cons placed rest ih =>
    obtain ⟨hplaced, hrest⟩ := List.forall_mem_cons.1 hslots
    simp only [postingsFaultAt, hplaced.region.cut_eq, TermData.flawAt_spec (hdata.of placed.region),
      hplaced.name.cut_eq, ih hrest, bind, Except.bind, List.map_cons, postingsFault?]
    show _ = Except.ok (match TermData.flaw? (placed.region.of data) with | some flaw => _ | none => _)
    cases TermData.flaw? (placed.region.of data) <;> rfl

/-! ## The files -/

/-- The contents of the files. -/
structure Regions where
  globalIndex : Bytes
  globalData : Bytes
  termIndex : Bytes
  termData : Bytes

/-- Each of the files must be there. -/
def Regions.load (files : SnapshotFiles) : Except Corruption Regions :=
  return ⟨← Snapshot.require files .globalIndex, ← Snapshot.require files .globalData,
    ← Snapshot.require files .termIndex, ← Snapshot.require files .termData⟩

/-- A snapshot, opened in place. -/
structure PlacedImage extends Regions where
  slots : Array PlacedSlot

/-- The snapshot. -/
def PlacedImage.snapshot (image : PlacedImage) : Snapshot :=
  ⟨image.globalIndex, image.globalData,
    image.slots.map (PlacedSlot.slot image.termIndex image.termData)⟩

/-- Checks the files and reads the index of the terms. -/
def Regions.validate (settings : OpenSettings) (regions : Regions) :
    Checked (Except Corruption PlacedImage) := do
  if regions.globalIndex.length % 8 ≠ 0 then return .error .globalIndexLength
  match ← globalsFaultAt regions.globalData 0 regions.globalIndex with
  | some corruption => return .error corruption
  | none =>
    match ← readSlotsAt regions.termIndex regions.termData none 0 with
    | .error corruption => return .error corruption
    | .ok slots =>
      if settings.verify then
        match ← postingsFaultAt regions.termIndex regions.termData slots with
        | some corruption => return .error corruption
        | none => return .ok ⟨regions, slots.toArray⟩
      else return .ok ⟨regions, slots.toArray⟩

/-- Opens the snapshot with the given base name and files. -/
def openAt (base : String) (settings : OpenSettings) (files : SnapshotFiles) :
    Checked (Except Fault PlacedImage) :=
  match Regions.load files with
  | .error cause => return .error (.corrupt base cause)
  | .ok regions => return (← regions.validate settings).mapError (.corrupt base)

/-- The contents of all files are small enough for memory. -/
def SnapshotFiles.Small (files : SnapshotFiles) : Prop :=
  ∀ file, ∀ contents ∈ files file, Addressable contents

/-- The contents of the four files are. -/
structure Regions.Small (regions : Regions) : Prop where
  globalIndex : Addressable regions.globalIndex
  globalData : Addressable regions.globalData
  termIndex : Addressable regions.termIndex
  termData : Addressable regions.termData

theorem SnapshotFiles.Small.require {files : SnapshotFiles} (h : files.Small) {file : FileRole}
    {contents : Bytes} (hfile : Snapshot.require files file = .ok contents) :
    Addressable contents := by
  unfold Snapshot.require at hfile
  split at hfile
  next hsome =>
    cases hfile
    exact h file contents hsome
  · cases hfile

theorem SnapshotFiles.Small.regions {files : SnapshotFiles} (h : files.Small) {regions : Regions}
    (hload : Regions.load files = .ok regions) : regions.Small := by
  obtain ⟨globalIndex, hglobalIndex, hload⟩ := bind_eq_ok.1 hload
  obtain ⟨globalData, hglobalData, hload⟩ := bind_eq_ok.1 hload
  obtain ⟨termIndex, htermIndex, hload⟩ := bind_eq_ok.1 hload
  obtain ⟨termData, htermData, hload⟩ := bind_eq_ok.1 hload
  cases hload
  exact ⟨h.require hglobalIndex, h.require hglobalData, h.require htermIndex, h.require htermData⟩

/-- What the image says of terms lies within its files. -/
structure PlacedImage.Inside (image : PlacedImage) : Prop where
  small : image.toRegions.Small
  slots : ∀ placed ∈ image.slots, placed.Inside image.termIndex image.termData

/-- The same, by readers that take values off the front. -/
def Regions.check (settings : OpenSettings) (regions : Regions) : Except Corruption Snapshot := do
  if regions.globalIndex.length % 8 ≠ 0 then throw .globalIndexLength
  Snapshot.refuse (globalsFault? regions.globalData 0 regions.globalIndex)
  let slots ← readSlots regions.termData regions.termIndex.length none regions.termIndex
  if settings.verify then Snapshot.refuse (postingsFault? slots)
  return ⟨regions.globalIndex, regions.globalData, slots.toArray⟩

theorem Snapshot.read_eq (settings : OpenSettings) (files : SnapshotFiles) :
    Snapshot.read settings files = Regions.load files >>= Regions.check settings := by
  unfold Snapshot.read Regions.load
  cases require files .globalIndex with
  | error => rfl
  | ok globalIndex =>
    cases require files .globalData with
    | error => rfl
    | ok globalData =>
      cases require files .termIndex with
      | error => rfl
      | ok termIndex => cases require files .termData <;> rfl

/-- Files that are there are read as they stand. -/
theorem Regions.validate_spec {regions : Regions} (hsmall : regions.Small)
    (settings : OpenSettings) :
    Agrees (regions.validate settings) (regions.check settings) PlacedImage.snapshot
      PlacedImage.Inside := by
  have hfirst : ∀ before ∈ (none : Option PlacedSlot),
    before.Inside regions.termIndex regions.termData := nofun
  obtain ⟨slots?, hread, hslots, hinside⟩ :=
    readSlotsAt_spec hsmall.termIndex hsmall.termData hfirst (Nat.zero_le _)
  rw [List.drop_zero, Option.map_none] at hslots
  have hindex : 0 + regions.globalIndex.length < 2 ^ 63 := by
    rw [Nat.zero_add]
    exact hsmall.globalIndex
  unfold Regions.validate Regions.check
  simp only [globalsFaultAt_spec hsmall.globalData hindex, hread, hslots, bind, Except.bind]
  -- Both stop at the first check that fails.
  split
  · exact .refused rfl rfl
  cases globalsFault? regions.globalData 0 regions.globalIndex with
  | some corruption => exact .refused rfl rfl
  | none =>
    cases slots? with
    | error corruption => exact .refused rfl rfl
    | ok slots =>
      have hall := hinside slots rfl
      have himage : Snapshot.mk regions.globalIndex regions.globalData
          (slots.map (PlacedSlot.slot regions.termIndex regions.termData)).toArray
            = PlacedImage.snapshot ⟨regions, slots.toArray⟩ := by
        rw [PlacedImage.snapshot, List.map_toArray]
      have hopened : PlacedImage.Inside ⟨regions, slots.toArray⟩ :=
        ⟨hsmall, fun placed hplaced => hall placed (List.mem_toArray.1 hplaced)⟩
      simp only [postingsFaultAt_spec hsmall.termData hall]
      cases settings.verify with
      | false => exact .accepted rfl (congrArg Except.ok himage) hopened
      | true =>
        dsimp only [Except.map]
        cases postingsFault? (slots.map (PlacedSlot.slot regions.termIndex regions.termData)) with
        | some corruption => exact .refused rfl rfl
        | none => exact .accepted rfl (congrArg Except.ok himage) hopened

/-- **Files are opened as they stand**, whatever they hold, or refused for the same reason. -/
theorem openAt_spec {files : SnapshotFiles} (hfiles : files.Small) (base : String)
    (settings : OpenSettings) :
    Agrees (openAt base settings files) (Snapshot.open? base settings files) PlacedImage.snapshot
      PlacedImage.Inside := by
  unfold openAt Snapshot.open?
  rw [Snapshot.read_eq]
  cases hload : Regions.load files with
  | error corruption => exact .refused rfl rfl
  | ok regions =>
    obtain ⟨result, hvalid, hread, hinside⟩ :=
      Regions.validate_spec (hfiles.regions hload) settings
    simp only [hvalid, hread, bind, Except.bind]
    cases result with
    | error corruption => exact .refused rfl rfl
    | ok image => exact .accepted rfl rfl (hinside image rfl)

end InvertedIndex
