import InvertedIndex.Proofs.Checked
import InvertedIndex.Proofs.Postings.Entry
import Mathlib.Algebra.Ring.Nat

/-!
# `Proofs.Postings.Offsets` — the entries of a block by offsets

A block is read in place: each entry is found at an offset, and the next one is sought behind it. Of
entries that were written one behind the other, each is found at the sum of the sizes of those
before it. Of a block that was cut short, exactly those are found that lie in what is left.

## Contents
- `Entry.decodeAt`, `Entry.entriesFrom`: an entry at an offset, and all of them;
- `Entry.decodeAt_spec`, `Entry.entriesFrom_spec`: they read what `decode?` and `decodeAll` read;
- `Bytes.SelfDelimiting`: what is taken off the front does not depend on what follows;
- `Entry.placements`: where written entries lie; `Entry.block_recovered`: that they are found there.
-/

namespace InvertedIndex

open Checked

namespace Entry

/-! ## Reading -/

/-- An entry of a block, and where it lies. -/
structure Placed where
  offset : Nat
  entry : Entry
  /-- The offset of what follows. -/
  next : Nat
  deriving Repr, DecidableEq

/-- The payload length behind a header with the given length code, and the place behind it. -/
def readLengthAt (block : Bytes) (code : UInt16) (place : Nat) : Checked (Option (Nat × Nat)) :=
  if code < 7 then return some (code.toNat, place)
  else
    match block[place]? with
    | none => return none
    | some marker => do
      let place ← add place 1
      if marker = 0 then
        match ← readUInt16At block place with
        | none => return none
        | some length => return some (length.toNat, ← add place 2)
      else if marker = 1 then
        match ← readUInt32At block place with
        | none => return none
        | some length => return some (length.toNat, ← add place 4)
      else return some (marker.toNat, place)

/-- The entry at an offset, `none` if no whole one stands there. -/
def decodeAt (block : Bytes) (offset : Nat) : Checked (Option Placed) := do
  match ← readUInt16At block offset with
  | none => return none
  | some header =>
    match ← readLengthAt block (header &&& 0xF) (← add offset 2) with
    | none => return none
    | some (length, start) =>
      let next ← add start length
      return (slice? block start next).map fun payload => ⟨offset, ⟨header >>> 4, payload⟩, next⟩

variable {block : Bytes} {place : Nat}

theorem readLengthAt_le {code : UInt16} {length start : Nat}
    (h : readLengthAt block code place = .ok (some (length, start))) : place ≤ start := by
  unfold readLengthAt at h
  split at h
  · cases h
    exact Nat.le_refl _
  split at h
  · cases h
  obtain ⟨behind, hbehind, h⟩ := bind_eq_ok.1 h
  have hmarker := add_eq_ok hbehind
  split at h
  · obtain ⟨length, -, h⟩ := bind_eq_some h rfl
    obtain ⟨stop, hstop, h⟩ := bind_eq_ok.1 h
    cases h
    have := add_eq_ok hstop
    omega
  split at h
  · obtain ⟨length, -, h⟩ := bind_eq_some h rfl
    obtain ⟨stop, hstop, h⟩ := bind_eq_ok.1 h
    cases h
    have := add_eq_ok hstop
    omega
  · cases h
    omega

/-- What follows an entry lies behind its offset, within the block. -/
theorem decodeAt_lt {placed : Placed} (h : decodeAt block place = .ok (some placed)) :
    place < placed.next ∧ placed.next ≤ block.length := by
  unfold decodeAt at h
  obtain ⟨header, -, h⟩ := bind_eq_some h rfl
  obtain ⟨behind, hbehind, h⟩ := bind_eq_ok.1 h
  obtain ⟨⟨length, start⟩, hfound, h⟩ := bind_eq_some h rfl
  obtain ⟨next, hnext, h⟩ := bind_eq_ok.1 h
  obtain ⟨payload, hpayload, rfl⟩ := Option.map_eq_some_iff.1 (Except.ok.inj h)
  have hheader := add_eq_ok hbehind
  have hlength := readLengthAt_le hfound
  have hsum := add_eq_ok hnext
  unfold slice? at hpayload
  split at hpayload
  next hwithin =>
    exact ⟨by dsimp only; omega, hwithin.2⟩
  · cases hpayload

/-- The entries of a block from an offset on, up to the first place where no whole one stands. -/
def entriesFrom (block : Bytes) (place : Nat) : Checked (List Placed) :=
  match _h : decodeAt block place with
  | .error trap => .error trap
  | .ok none => return []
  | .ok (some placed) => do
    return placed :: (← entriesFrom block placed.next)
termination_by block.length - place
decreasing_by
  obtain ⟨hlt, hle⟩ := decodeAt_lt _h
  omega

theorem entriesFrom_of_none (h : decodeAt block place = .ok none) :
    entriesFrom block place = .ok [] := by
  unfold entriesFrom
  split
  next hread =>
    rw [h] at hread
    cases hread
  · rfl
  next hread =>
    rw [h] at hread
    cases hread

theorem entriesFrom_of_some {placed : Placed} {others : List Placed}
    (h : decodeAt block place = .ok (some placed))
    (hothers : entriesFrom block placed.next = .ok others) :
    entriesFrom block place = .ok (placed :: others) := by
  rw [entriesFrom]
  split
  next hread =>
    rw [h] at hread
    cases hread
  next hread =>
    rw [h] at hread
    cases hread
  next hread =>
    rw [h] at hread
    cases hread
    rw [hothers]
    rfl

/-! ## What is read -/

theorem readLengthAt_spec (hblock : Addressable block) (hplace : place ≤ block.length)
    (code : UInt16) :
    Finds (readLengthAt block code place) (readLength? code (block.drop place))
      (fun found => (found.1, block.drop found.2))
      fun found => found.1 < 2 ^ 32 ∧ place ≤ found.2 ∧ found.2 ≤ block.length := by
  unfold readLengthAt readLength?
  split
  next hshort =>
    have hcode := UInt16.lt_iff_toNat_lt.1 hshort
    have hseven : (7 : UInt16).toNat = 7 := rfl
    exact .found rfl rfl ⟨by dsimp only; omega, Nat.le_refl _, hplace⟩
  cases hmarker : block[place]? with
  | none =>
    rw [List.drop_eq_nil_of_le (List.getElem?_eq_none_iff.1 hmarker)]
    exact .nothing rfl rfl
  | some marker =>
    obtain ⟨hlt, rfl⟩ := List.getElem?_eq_some_iff.1 hmarker
    rw [List.drop_eq_getElem_cons hlt]
    simp only [add_eq (hblock.add_lt hplace (by omega : 1 < 2 ^ 63)), bind, Except.bind]
    -- The marker announces two or four bytes, or is the length itself.
    split
    · obtain ⟨length?, hread, hsuffix, hbound⟩ := readUInt16At_spec block (place + 1)
        (hblock.add_lt hlt (by omega))
      rw [hread, hsuffix]
      cases length? with
      | none => exact .nothing rfl rfl
      | some length =>
        have hlength := length.toNat_lt
        simp only [add_eq (hblock.add_lt hlt (by omega : 2 < 2 ^ 63))]
        exact .found rfl rfl ⟨by dsimp only; omega, by dsimp only; omega, hbound _ rfl⟩
    split
    · obtain ⟨length?, hread, hsuffix, hbound⟩ := readUInt32At_spec block (place + 1)
        (hblock.add_lt hlt (by omega))
      rw [hread, hsuffix]
      cases length? with
      | none => exact .nothing rfl rfl
      | some length =>
        have hlength := length.toNat_lt
        simp only [add_eq (hblock.add_lt hlt (by omega : 4 < 2 ^ 63))]
        exact .found rfl rfl ⟨by dsimp only; omega, by dsimp only; omega, hbound _ rfl⟩
    · have hbyte := block[place].toNat_lt
      exact .found rfl rfl ⟨by dsimp only; omega, by dsimp only; omega, hlt⟩

/-- An entry is found where it is. -/
theorem decodeAt_spec (hblock : Addressable block) (hplace : place ≤ block.length) :
    Finds (decodeAt block place) (decode? (block.drop place))
      (fun placed => (placed.entry, block.drop placed.next))
      fun placed => placed.offset = place ∧ placed.next ≤ block.length := by
  obtain ⟨header?, hread, hsuffix, hbound⟩ := readUInt16At_spec block place
    (hblock.add_lt hplace (by omega))
  unfold decodeAt decode? readHead?
  rw [hread, hsuffix]
  simp only [bind, Except.bind]
  cases header? with
  | none => exact .nothing rfl rfl
  | some header =>
    have hlength : place + 2 ≤ block.length := hbound _ rfl
    obtain ⟨found?, hfound, hhead, hfits⟩ := readLengthAt_spec hblock hlength (header &&& 0xF)
    simp only [Option.map_some, add_eq (hblock.add_lt hplace (by omega : 2 < 2 ^ 63)), hfound,
      hhead]
    cases found? with
    | none => exact .nothing rfl rfl
    | some found =>
      obtain ⟨length, start⟩ := found
      obtain ⟨hsmall, -, hstart⟩ := hfits _ rfl
      simp only [Option.map_some, Bytes.mapRead, take?_drop block _ _ hstart,
        add_eq (hblock.add_lt hstart (by omega : length < 2 ^ 63)), slice?, Nat.le_add_right,
        true_and]
      split
      next hwhole => exact .found rfl rfl ⟨rfl, hwhole⟩
      · exact .nothing rfl rfl

/-- **The entries of a block are those that the library reads**, whatever the bytes are. -/
theorem entriesFrom_spec (hblock : Addressable block) (hplace : place ≤ block.length) :
    ∃ found, entriesFrom block place = .ok found ∧
      decodeAll (block.drop place) = found.map Placed.entry := by
  fun_induction entriesFrom block place with
  | case1 place trap hread => exact absurd hread (decodeAt_spec hblock hplace).ne_error
  | case2 place hread =>
    have hnone := (decodeAt_spec hblock hplace).eq_none hread
    exact ⟨[], rfl, decodeAll_of_none hnone⟩
  | case3 place placed hread ih =>
    obtain ⟨hsome, -, hnext⟩ := (decodeAt_spec hblock hplace).eq_some hread
    obtain ⟨found, hfound, hrest⟩ := ih hnext
    refine ⟨placed :: found, by rw [hfound]; rfl, ?_⟩
    rw [decodeAll_of_some hsome, hrest, List.map_cons]

end Entry

/-! ## What follows a value -/

namespace Bytes

/-- What the reader takes off the front does not depend on what follows it. -/
def SelfDelimiting {α : Type} (read : Bytes → Option (α × Bytes)) : Prop :=
  ∀ (bytes : Bytes) (value : α) (rest more : Bytes), read bytes = some (value, rest) →
    read (bytes ++ more) = some (value, rest ++ more)

theorem readUInt16?_selfDelimiting : SelfDelimiting readUInt16? := by
  intro bytes value rest more h
  match bytes, h with
  | a :: b :: left, h =>
    cases h
    rfl

theorem readUInt32?_selfDelimiting : SelfDelimiting readUInt32? := by
  intro bytes value rest more h
  match bytes, h with
  | a :: b :: c :: d :: left, h =>
    cases h
    rfl

theorem take?_selfDelimiting (count : Nat) : SelfDelimiting (take? count) := by
  intro bytes value rest more h
  have hcount := take?_taken_length h
  have htaken : bytes = value ++ rest := by
    simp only [take?, List.splitAt_eq] at h
    split at h
    · cases h
      exact (List.take_append_drop count bytes).symm
    · cases h
  rw [htaken, List.append_assoc, take?_append value _ hcount]

theorem SelfDelimiting.mapRead {α β : Type} {read : Bytes → Option (α × Bytes)}
    (h : SelfDelimiting read) (f : α → β) : SelfDelimiting fun bytes => mapRead f (read bytes) := by
  intro bytes value rest more hread
  obtain ⟨a, ha, rfl⟩ := mapRead_eq_some.1 hread
  exact mapRead_eq_some.2 ⟨a, h bytes a rest more ha, rfl⟩

end Bytes

namespace Entry

open Bytes

theorem readLength?_selfDelimiting (code : UInt16) : SelfDelimiting (readLength? code) := by
  intro bytes value rest more h
  unfold readLength? at h ⊢
  split at h
  next hshort =>
    cases h
    rw [if_pos hshort]
  next hlong =>
    rw [if_neg hlong]
    match bytes, h with
    | marker :: left, h =>
      dsimp only [List.cons_append] at h ⊢
      split at h
      next hzero =>
        rw [if_pos hzero]
        exact readUInt16?_selfDelimiting.mapRead _ _ _ _ more h
      next hzero =>
        rw [if_neg hzero]
        split at h
        next hone =>
          rw [if_pos hone]
          exact readUInt32?_selfDelimiting.mapRead _ _ _ _ more h
        next hone =>
          rw [if_neg hone]
          cases h
          rfl

theorem readHead?_selfDelimiting : SelfDelimiting readHead? := by
  intro bytes value rest more h
  unfold readHead? at h ⊢
  split at h
  · cases h
  next header left hheader =>
    rw [readUInt16?_selfDelimiting _ _ _ more hheader]
    exact (readLength?_selfDelimiting _).mapRead _ _ _ _ more h

theorem decode?_selfDelimiting : SelfDelimiting decode? := by
  intro bytes value rest more h
  unfold decode? at h ⊢
  split at h
  · cases h
  next head left hhead =>
    rw [readHead?_selfDelimiting _ _ _ more hhead]
    exact (take?_selfDelimiting head.length).mapRead _ _ _ _ more h

/-- A part of an entry is no entry. -/
theorem decode?_take {entry : Entry} (h : entry.Fits) {count : Nat}
    (hcount : count < entry.encode.length) : decode? (entry.encode.take count) = none := by
  cases hread : decode? (entry.encode.take count) with
  | none => rfl
  | some found =>
    obtain ⟨found, rest⟩ := found
    -- With the missing bytes behind it, the whole entry would be read and these would be left.
    have hwhole := decode?_selfDelimiting _ _ _ (entry.encode.drop count) hread
    have hentry := decode?_encode h []
    rw [List.take_append_drop] at hwhole
    rw [List.append_nil, hwhole] at hentry
    have hleft := (List.append_eq_nil_iff.1 (Prod.mk.inj (Option.some.inj hentry)).2).2
    have := List.drop_eq_nil_iff.1 hleft
    omega

/-! ## Where entries lie -/

/-- Entries that stand one behind the other from an offset on, each with the offsets at which it and
    the next one start. -/
def placements (offset : Nat) : List Entry → List Placed
  | [] => []
  | entry :: rest =>
    let next := offset + encodedSize entry.payload.length
    ⟨offset, entry, next⟩ :: placements next rest

theorem map_placements (offset : Nat) (entries : List Entry) :
    (placements offset entries).map Placed.entry = entries := by
  induction entries generalizing offset with
  | nil => rfl
  | cons entry rest ih => exact congrArg (entry :: ·) (ih _)

/-- The last of them ends where all the bytes end. -/
theorem placements_last (offset : Nat) (entries : List Entry) :
    ∀ placed ∈ (placements offset entries).getLast?,
      placed.next = offset + (encodeAll entries).length := by
  induction entries generalizing offset with
  | nil => nofun
  | cons entry rest ih =>
    intro placed hlast
    rw [encodeAll_cons, List.length_append, encode_length, ← Nat.add_assoc]
    cases rest with
    | nil =>
      cases hlast
      rfl
    | cons second others => exact ih _ placed hlast

/-- All of them end where all the bytes end at the latest. -/
theorem placements_le (offset : Nat) (entries : List Entry) :
    ∀ placed ∈ placements offset entries, placed.next ≤ offset + (encodeAll entries).length := by
  induction entries generalizing offset with
  | nil => nofun
  | cons entry rest ih =>
    rw [encodeAll_cons, List.length_append, encode_length, ← Nat.add_assoc]
    refine List.forall_mem_cons.2 ⟨Nat.le_add_right _ _, ?_⟩
    intro placed hplaced
    exact ih _ placed hplaced

/-- They all lie behind the offset. -/
theorem placements_next {offset : Nat} {entries : List Entry} :
    ∀ placed ∈ placements offset entries, offset < placed.next := by
  induction entries generalizing offset with
  | nil => nofun
  | cons entry rest ih =>
    have hsize := two_le_encodedSize entry.payload.length
    refine List.forall_mem_cons.2 ⟨by dsimp only; omega, ?_⟩
    intro placed hplaced
    have := ih placed hplaced
    omega

/-- What is found behind other bytes in front of a cut. -/
theorem decodeAt_take {front tail : Bytes} {cut : Nat} (hblock : Addressable (front ++ tail))
    (hcut : front.length ≤ cut) :
    Finds (decodeAt ((front ++ tail).take cut) front.length)
      (decode? (tail.take (cut - front.length)))
      (fun placed => (placed.entry, ((front ++ tail).take cut).drop placed.next))
      fun placed => placed.offset = front.length ∧
        placed.next ≤ ((front ++ tail).take cut).length := by
  have hwithin : Addressable ((front ++ tail).take cut) := by
    have hle := List.length_take_le' cut (front ++ tail)
    exact Nat.lt_of_le_of_lt hle hblock
  have hplace : front.length ≤ ((front ++ tail).take cut).length := by
    rw [List.length_take, List.length_append]
    omega
  have hdrop : ((front ++ tail).take cut).drop front.length = tail.take (cut - front.length) := by
    rw [List.drop_take, List.drop_left]
  rw [← hdrop]
  exact decodeAt_spec hwithin hplace

/-- Of entries behind other bytes, exactly those are found that lie in front of a cut. -/
theorem entriesFrom_take {front : Bytes} {entries : List Entry} {cut : Nat}
    (h : ∀ entry ∈ entries, entry.Fits) (hblock : Addressable (front ++ encodeAll entries))
    (hcut : front.length ≤ cut) :
    entriesFrom ((front ++ encodeAll entries).take cut) front.length
      = .ok ((placements front.length entries).filter fun placed => placed.next ≤ cut) := by
  induction entries generalizing front with
  | nil =>
    have hnone : decode? (List.take (cut - front.length) (encodeAll [])) = none := by
      rw [encodeAll_nil, List.take_nil]
      rfl
    exact entriesFrom_of_none ((decodeAt_take hblock hcut).ok_none hnone)
  | cons entry rest ih =>
    obtain ⟨hentry, hrest⟩ := List.forall_mem_cons.1 h
    have hsize := encode_length entry
    have hspec := decodeAt_take hblock hcut
    unfold placements
    dsimp only
    by_cases hwhole : front.length + encodedSize entry.payload.length ≤ cut
    · -- The entry is whole: it is read, and the others are found behind it.
      have hread : decode? ((encodeAll (entry :: rest)).take (cut - front.length)) = some
          (entry, (encodeAll rest).take (cut - front.length - entry.encode.length)) := by
        rw [encodeAll_cons, List.take_append, List.take_of_length_le (by omega)]
        exact decode?_encode hentry _
      obtain ⟨⟨offset, found, next⟩, hfound, hview, hoffset, hnext⟩ := hspec.ok_some hread
      simp only [Prod.mk.injEq] at hview hoffset
      obtain ⟨rfl, hleft⟩ := hview
      subst hoffset
      have hlength := congrArg List.length hleft
      simp only [List.length_drop, List.length_take, List.length_append, encodeAll_cons]
        at hlength hnext
      obtain rfl : next = front.length + encodedSize found.payload.length := by omega
      have hblock' : Addressable ((front ++ found.encode) ++ encodeAll rest) := by
        rw [List.append_assoc]
        exact hblock
      have hothers := ih hrest hblock' (by rw [List.length_append]; omega)
      rw [List.append_assoc, List.length_append, hsize] at hothers
      rw [List.filter_cons_of_pos (by simpa using hwhole)]
      exact entriesFrom_of_some hfound hothers
    · -- It is not: nothing is found from here on, and nothing lies in front of the cut.
      have hread : decode? ((encodeAll (entry :: rest)).take (cut - front.length)) = none := by
        rw [encodeAll_cons, List.take_append_of_le_length (by omega)]
        exact decode?_take hentry (by omega)
      have hothers : (placements (front.length + encodedSize entry.payload.length) rest).filter
          (fun placed => placed.next ≤ cut) = [] := by
        refine List.filter_eq_nil_iff.2 fun placed hplaced => ?_
        have := placements_next placed hplaced
        exact fun hle => absurd (of_decide_eq_true hle) (by omega)
      rw [List.filter_cons_of_neg (by simpa using hwhole), hothers]
      exact entriesFrom_of_none (hspec.ok_none hread)

/-- **A block yields what was written, where it was written.** Its bytes are as many as are
    accounted for its entries; each entry is found at its offset, and the last one ends where the
    block ends. Of a block that was cut anywhere, exactly those entries are found that lie in front
    of the cut. -/
theorem block_recovered {entries : List Entry} (h : ∀ entry ∈ entries, entry.Fits)
    (hblock : Addressable (encodeAll entries)) :
    (encodeAll entries).length
        = (entries.map fun entry => encodedSize entry.payload.length).sum ∧
      (placements 0 entries).map Placed.entry = entries ∧
      (∀ placed ∈ (placements 0 entries).getLast?, placed.next = (encodeAll entries).length) ∧
      entriesFrom (encodeAll entries) 0 = .ok (placements 0 entries) ∧
      ∀ cut, entriesFrom ((encodeAll entries).take cut) 0
        = .ok ((placements 0 entries).filter fun placed => placed.next ≤ cut) := by
  have hcut (cut : Nat) := @entriesFrom_take [] entries cut h hblock (Nat.zero_le _)
  have hlast := placements_last 0 entries
  rw [Nat.zero_add] at hlast
  refine ⟨encodeAll_length entries, map_placements 0 entries, hlast, ?_, hcut⟩
  -- The block itself is what is left in front of a cut at its end.
  have hwhole := hcut (encodeAll entries).length
  have hall : ∀ placed ∈ placements 0 entries, placed.next ≤ (encodeAll entries).length := by
    have hle := placements_le 0 entries
    rwa [Nat.zero_add] at hle
  rw [List.nil_append, List.take_length, List.filter_eq_self.2 (by simpa using hall)] at hwhole
  exact hwhole

/-- An empty payload, one whose length stands behind the header, and one whose length stands
    in it. -/
theorem block_recovered_three :
    (∀ entry ∈ [⟨1, []⟩, ⟨5, List.replicate 7 104⟩, ⟨9, [120]⟩], Fits entry) ∧
      entriesFrom (encodeAll [⟨1, []⟩, ⟨5, List.replicate 7 104⟩, ⟨9, [120]⟩]) 0
        = .ok [⟨0, ⟨1, []⟩, 2⟩, ⟨2, ⟨5, List.replicate 7 104⟩, 12⟩, ⟨12, ⟨9, [120]⟩, 15⟩] ∧
      entriesFrom ((encodeAll [⟨1, []⟩, ⟨5, List.replicate 7 104⟩, ⟨9, [120]⟩]).take 14) 0
        = .ok [⟨0, ⟨1, []⟩, 2⟩, ⟨2, ⟨5, List.replicate 7 104⟩, 12⟩] := by
  have hfits : ∀ entry ∈ [⟨1, []⟩, ⟨5, List.replicate 7 104⟩, ⟨9, [120]⟩], Fits entry := by decide
  obtain ⟨-, -, -, hwhole, hcut⟩ := block_recovered hfits (by decide)
  exact ⟨hfits, hwhole, hcut 14⟩

end Entry
end InvertedIndex
