import InvertedIndex.Proofs.Bytes
import InvertedIndex.Proofs.Outcome
import InvertedIndex.Snapshot.Basic
import InvertedIndex.Snapshot.Draft
import Mathlib.Data.List.Basic
import Mathlib.Data.List.Sort
import Mathlib.Data.List.TakeWhile

/-!
# `Proofs.Snapshot.Open` — written files are opened again

The index of the terms says for each term where its region lies. Read back with the regions it was
written for, it gives the terms with their data, as long as no text has a zero byte, the terms
ascend and the file of regions is not too long for an offset. Among terms in ascending order the
search by halving finds the first that is not below a text.

## Contents
- `fromUTF8?_textBytes`, `splitZero?_append`: the text of a term;
- `regionAt?_region`: a region at its offset;
- `readSlot?`, `readSlots_eq_readSlot?`: the index, term by term;
- `readSlots_termIndex`: the whole index; `Snapshot.open?_eq_ok`: the files;
- `lowerBound_eq`, `Snapshot.drop_placeOf`, `Snapshot.slot?_eq_some`: look-ups among ascending terms.
-/

namespace InvertedIndex

/-! ## Texts -/

theorem fromUTF8?_textBytes (text : String) :
    String.fromUTF8? ⟨(textBytes text).toArray⟩ = some text := by
  have hbytes : (⟨(textBytes text).toArray⟩ : ByteArray) = text.toByteArray := by
    simp [textBytes]
  rw [hbytes, String.fromUTF8?, dif_pos text.isValidUTF8]
  rfl

/-- A text is what its bytes say. -/
theorem textBytes_eq_of_fromUTF8? {name : Bytes} {text : String}
    (h : String.fromUTF8? ⟨name.toArray⟩ = some text) : textBytes text = name := by
  unfold String.fromUTF8? at h
  split at h
  · cases h
    rfl
  · cases h

/-- Only the character zero has a zero byte. -/
theorem zero_notMem_utf8EncodeChar {c : Char} (hc : c ≠ '\x00') :
    0 ∉ String.utf8EncodeChar c := by
  intro hmem
  rcases Nat.lt_or_ge c.toNat 0x80 with hascii | hwide
  · rw [(utf8EncodeChar_ascii hascii).2, List.mem_singleton] at hmem
    have hbyte := toUInt8_toNat hascii
    rw [← hmem] at hbyte
    exact hc (Char.toNat_inj.1 hbyte.symm)
  · exact absurd ((utf8EncodeChar_wide hwide).2 0 hmem) (by decide)

theorem zero_notMem_textBytes {text : String} (h : '\x00' ∉ text.toList) :
    0 ∉ textBytes text := by
  rw [textBytes_eq_flatMap, List.mem_flatMap]
  rintro ⟨c, hc, hzero⟩
  refine zero_notMem_utf8EncodeChar ?_ hzero
  rintro rfl
  exact h hc

/-- A text without a zero byte is split off at the zero byte behind it. -/
theorem splitZero?_append {name : Bytes} (h : 0 ∉ name) (rest : Bytes) :
    splitZero? (name ++ 0 :: rest) = some (name, rest) := by
  induction name with
  | nil => rfl
  | cons b name ih =>
    have hb : b ≠ 0 := fun hzero => h (by simp [hzero])
    have hname := ih fun hmem => h (List.mem_cons_of_mem _ hmem)
    rw [List.cons_append, splitZero?, if_neg hb, hname]
    rfl

/-! ## Regions -/

theorem region_length (bytes : Bytes) : (region bytes).length = regionHeader + bytes.length := by
  rw [region, List.length_append, Bytes.ofUInt32_length]
  rfl

/-- The next region starts behind the one before. -/
theorem next_offset (front bytes : Bytes) : front.length + regionHeader + regionHeader + bytes.length
    = (front ++ region bytes).length + regionHeader := by
  rw [List.length_append, region_length]
  omega

/-- A region is found at the offset of its first byte. -/
theorem regionAt?_region {front bytes : Bytes} (h : bytes.length < 2 ^ 32) (rest : Bytes) :
    regionAt? (front ++ (region bytes ++ rest)) (front.length + regionHeader) = some bytes := by
  have hnot : ¬ front.length + regionHeader < regionHeader := by omega
  have hlength : bytes.length.toUInt32.toNat = bytes.length := Nat.mod_eq_of_lt h
  have hread : Bytes.readUInt32? (region bytes ++ rest)
      = some (bytes.length.toUInt32, bytes ++ rest) := by
    rw [region, List.append_assoc, Bytes.readUInt32?_ofUInt32]
  rw [regionAt?, if_neg hnot, Nat.add_sub_cancel, List.drop_left, hread]
  show (Bytes.take? bytes.length.toUInt32.toNat (bytes ++ rest)).map Prod.fst = some bytes
  rw [hlength, Bytes.take?_append _ _ rfl]
  rfl

/-! ## The index of the terms -/

/-- A term as it is read back. -/
def TermImage.slot (image : TermImage) : Slot := ⟨image.term, image.data, image.longest.toUInt32⟩

/-- A term that can be found again: its text has no zero byte, and its data leaves room for a length
    of four bytes. -/
structure TermImage.Findable (image : TermImage) : Prop where
  term : '\x00' ∉ image.term.toList
  data : image.data.length < 2 ^ 32

theorem termIndex_ne_nil {offset : Nat} {image : TermImage} {rest : List TermImage} :
    termIndex offset (image :: rest) ≠ [] := by
  rw [termIndex]
  exact List.append_ne_nil_of_right_ne_nil _ (List.cons_ne_nil _ _)

theorem termData_cons (image : TermImage) (rest : List TermImage) :
    termData (image :: rest) = region image.data ++ termData rest := List.flatMap_cons ..

/-- What stands behind the text of a term that starts at the offset `start`, and the rest. -/
def readFields? (data : Bytes) (start : Nat) (last : Option String) (term : String)
    (bytes : Bytes) : Except Corruption (Slot × Bytes) :=
  match Bytes.readUInt64? bytes with
  | none => .error .truncatedEntry
  | some (place, rest) =>
    match Bytes.readUInt32? rest with
    | none => .error .truncatedEntry
    | some (longest, rest) =>
      match regionAt? data place.toNat with
      | none => .error (.termRange start)
      | some region =>
        if last.any (term ≤ ·) then .error .termOrder else .ok (⟨term, region, longest⟩, rest)

/-- A term off the front of an index of so many bytes in all, and the rest. -/
def readSlot? (data : Bytes) (total : Nat) (last : Option String) (index : Bytes) :
    Except Corruption (Slot × Bytes) :=
  match splitZero? index with
  | none => .error .unterminatedTerm
  | some (name, rest) =>
    match String.fromUTF8? ⟨name.toArray⟩ with
    | none => .error (.termEncoding (total - index.length))
    | some term => readFields? data (total - index.length) last term rest

/-- The index is read term by term. -/
theorem readSlots_eq_readSlot? {data index : Bytes} {total : Nat} {last : Option String}
    (hindex : index ≠ []) : readSlots data total last index =
      (readSlot? data total last index).bind fun found =>
        (readSlots data total (some found.1.term) found.2).map (found.1 :: ·) := by
  rw [readSlots, if_neg (by simpa using hindex)]
  unfold readSlot? readFields?
  dsimp only
  -- Both go through the parts of the term, and stop at the first that is missing.
  split
  next hname =>
    rw [hname]
    rfl
  next name rest hname =>
    rw [hname]
    dsimp only
    cases String.fromUTF8? ⟨name.toArray⟩ with
    | none => rfl
    | some term =>
      dsimp only
      split
      next hplace =>
        rw [hplace]
        rfl
      next place rest hplace =>
        rw [hplace]
        dsimp only
        split
        next hlongest =>
          rw [hlongest]
          rfl
        next hlongest =>
          rw [hlongest]
          dsimp only
          cases regionAt? data place.toNat with
          | none => rfl
          | some region =>
            dsimp only
            split <;> rfl

/-- What is read of an index ascends, and comes behind the term before. -/
theorem readSlots_ascending {data index : Bytes} {total : Nat} {last : Option String}
    {slots : List Slot} (h : readSlots data total last index = .ok slots) :
    (slots.Pairwise fun a b => a.term < b.term) ∧
      ∀ before ∈ last, ∀ slot ∈ slots, before < slot.term := by
  fun_induction readSlots data total last index generalizing slots with
  | case1 =>
    cases h
    exact ⟨.nil, fun _ _ => nofun⟩
  | case8 last index hleft name rest₁ hname term hterm place rest₂ hplace longest rest₃
      hlongest region hregion horder ih =>
    obtain ⟨others, hothers, rfl⟩ := map_eq_ok.1 h
    obtain ⟨hasc, hbehind⟩ := ih hothers
    have hlast : ∀ before ∈ last, before < term := by
      rintro before rfl
      simpa using horder
    refine ⟨List.pairwise_cons.2 ⟨hbehind term rfl, hasc⟩, fun before hbefore => ?_⟩
    refine List.forall_mem_cons.2 ⟨hlast before hbefore, fun slot hslot => ?_⟩
    exact String.lt_trans (hlast before hbefore) (hbehind term rfl slot hslot)
  | _ => cases h

/-- **What is read of a term that was written**: its region, if that lies within the data, and the
    rest of the index. -/
theorem readSlot?_termIndex {data : Bytes} {total offset : Nat} {last : Option String}
    {image : TermImage} (hoffset : offset < 2 ^ 64) (hterm : '\x00' ∉ image.term.toList)
    (rest : List TermImage) :
    readSlot? data total last (termIndex offset (image :: rest)) =
      match regionAt? data offset with
      | none => .error (.termRange (total - (termIndex offset (image :: rest)).length))
      | some found =>
        if last.any (image.term ≤ ·) then .error .termOrder
        else .ok (⟨image.term, found, image.longest.toUInt32⟩,
          termIndex (offset + regionHeader + image.data.length) rest) := by
  have hplace : offset.toUInt64.toNat = offset := Nat.mod_eq_of_lt hoffset
  have hname := splitZero?_append (zero_notMem_textBytes hterm)
    (Bytes.ofUInt64 offset.toUInt64 ++ (Bytes.ofUInt32 image.longest.toUInt32
      ++ termIndex (offset + regionHeader + image.data.length) rest))
  rw [readSlot?]
  simp only [termIndex, hname, fromUTF8?_textBytes, readFields?, List.append_assoc,
    Bytes.readUInt64?_ofUInt64, Bytes.readUInt32?_ofUInt32, hplace]

section Written

variable {data : Bytes} {total offset : Nat} {last : Option String} {image : TermImage}
  {rest : List TermImage}

/-- A term whose region is found, in front of what is read of the rest. -/
theorem readSlots_found (hoffset : offset < 2 ^ 64) (hterm : '\x00' ∉ image.term.toList)
    (hfound : regionAt? data offset = some image.data)
    (hlast : ∀ before ∈ last, before < image.term) :
    readSlots data total last (termIndex offset (image :: rest))
      = (readSlots data total (some image.term)
          (termIndex (offset + regionHeader + image.data.length) rest)).map (image.slot :: ·) := by
  have horder : last.any (image.term ≤ ·) = false := by
    cases last with
    | none => rfl
    | some before => exact decide_eq_false (String.not_le.2 (hlast before rfl))
  rw [readSlots_eq_readSlot? termIndex_ne_nil, readSlot?_termIndex hoffset hterm, hfound]
  simp only [horder]
  rfl

/-- Reading stops at a term whose region does not lie within the data. -/
theorem readSlots_absent (hoffset : offset < 2 ^ 64) (hterm : '\x00' ∉ image.term.toList)
    (habsent : regionAt? data offset = none) :
    ∃ place, readSlots data total last (termIndex offset (image :: rest))
      = .error (.termRange place) := by
  rw [readSlots_eq_readSlot? termIndex_ne_nil, readSlot?_termIndex hoffset hterm, habsent]
  exact ⟨_, rfl⟩

end Written

/-- **The index is read back**, together with the regions it refers to. -/
theorem readSlots_termIndex {images : List TermImage} {front : Bytes} (total : Nat)
    {last : Option String} (hroom : front.length + (termData images).length < 2 ^ 64)
    (himages : ∀ image ∈ images, image.Findable)
    (hasc : images.Pairwise fun a b => a.term < b.term)
    (hlast : ∀ before ∈ last, ∀ image ∈ images, before < image.term) :
    readSlots (front ++ termData images) total last
        (termIndex (front.length + regionHeader) images) = .ok (images.map TermImage.slot) := by
  -- On the images, for any data in front: the offsets count from the start of the file.
  induction images generalizing front last with
  | nil =>
    unfold readSlots
    rfl
  | cons image rest ih =>
    obtain ⟨himage, hrest⟩ := List.forall_mem_cons.1 himages
    obtain ⟨hbehind, hasc'⟩ := List.pairwise_cons.1 hasc
    rw [termData_cons] at hroom ⊢
    rw [List.length_append, region_length] at hroom
    have hrecursive : readSlots (front ++ region image.data ++ termData rest) total
        (some image.term) (termIndex ((front ++ region image.data).length + regionHeader) rest)
          = .ok (rest.map TermImage.slot) := by
      refine ih ?_ hrest hasc' ?_
      · rw [List.length_append, region_length]
        omega
      · intro before hbefore other hother
        cases hbefore
        exact hbehind other hother
    -- Offsets fit their eight bytes as long as the file is not too long.
    rw [readSlots_found (by omega) himage.term (regionAt?_region himage.data _)
      (fun before hbefore => hlast before hbefore image List.mem_cons_self), next_offset,
      ← List.append_assoc, hrecursive]
    rfl

/-! ## The files -/

theorem postingsFault?_eq_none_iff {slots : List Slot} :
    postingsFault? slots = none ↔ ∀ slot ∈ slots, TermData.flaw? slot.data = none := by
  induction slots with
  | nil => exact iff_of_true rfl nofun
  | cons slot rest ih =>
    rw [postingsFault?, List.forall_mem_cons, ← ih]
    cases TermData.flaw? slot.data with
    | none => exact (and_iff_right rfl).symm
    | some flaw => exact iff_of_false nofun fun h => nomatch h.1

namespace Snapshot

theorem globalsFault?_nil (data : Bytes) (id : Nat) : globalsFault? data id [] = none := by
  unfold globalsFault?
  rfl

/-- **Written files are opened again**: the snapshot has the terms that were written, and blobs that
    are all found. -/
theorem read_eq_ok {globalIndex globalData : Bytes} {images : List TermImage} {files : SnapshotFiles}
    (hglobalIndex : files .globalIndex = some globalIndex)
    (hglobalData : files .globalData = some globalData)
    (htermIndex : files .termIndex = some (InvertedIndex.termIndex regionHeader images))
    (htermData : files .termData = some (InvertedIndex.termData images))
    (hentries : globalIndex.length % 8 = 0) (hglobals : globalsFault? globalData 0 globalIndex = none)
    (hroom : (InvertedIndex.termData images).length < 2 ^ 64)
    (himages : ∀ image ∈ images, image.Findable)
    (hasc : images.Pairwise fun a b => a.term < b.term)
    (hsound : ∀ image ∈ images, TermData.flaw? image.data = none) (settings : OpenSettings) :
    read settings files = .ok ⟨globalIndex, globalData, (images.map TermImage.slot).toArray⟩ := by
  have hslots : readSlots (InvertedIndex.termData images)
      (InvertedIndex.termIndex regionHeader images).length none
        (InvertedIndex.termIndex regionHeader images) = .ok (images.map TermImage.slot) :=
    @readSlots_termIndex images [] _ none (by simpa using hroom) himages hasc (by simp)
  have hflaws : postingsFault? (images.map TermImage.slot) = none := by
    refine postingsFault?_eq_none_iff.2 ?_
    intro slot hslot
    obtain ⟨image, himage, rfl⟩ := List.mem_map.1 hslot
    exact hsound image himage
  simp only [read, require, hglobalIndex, hglobalData, htermIndex, htermData, bind, Except.bind,
    hentries]
  rw [hglobals, hslots]
  simp only [hflaws]
  cases settings.verify <;> rfl

end Snapshot

/-! ## Search among ascending terms -/

/-- Where the items that are below come first, the search finds the first that is not. -/
theorem lowerBoundIn_eq {α : Type} {below : α → Bool} {items : Array α} {count : Nat}
    (hbelow : ∀ i item, items[i]? = some item → (below item ↔ i < count)) {low high : Nat}
    (hlow : low ≤ count) (hhigh : count ≤ high) (hsize : high ≤ items.size) :
    lowerBoundIn below items low high = count := by
  fun_induction lowerBoundIn below items low high with
  | case1 low high hlt middle hany ih =>
    have hmiddle : middle < items.size := by omega
    have hget := Array.getElem?_eq_getElem hmiddle
    rw [hget] at hany
    have hless := (hbelow middle _ hget).1 hany
    exact ih hless hhigh hsize
  | case2 low high hlt middle hany ih =>
    have hmiddle : middle < items.size := by omega
    have hget := Array.getElem?_eq_getElem hmiddle
    rw [hget] at hany
    have hless : ¬ middle < count := fun h => hany ((hbelow middle _ hget).2 h)
    exact ih hlow (Nat.le_of_not_lt hless) (by omega)
  | case3 low high hge => omega

/-- The search finds the end of the items that are below. -/
theorem lowerBound_eq {α : Type} {below : α → Bool} {items : Array α} {front back : List α}
    (hitems : items.toList = front ++ back) (hfront : ∀ item ∈ front, below item)
    (hback : ∀ item ∈ back, ¬ below item) : lowerBound below items = front.length := by
  have hsize : items.size = front.length + back.length := by
    rw [← Array.length_toList, hitems, List.length_append]
  refine lowerBoundIn_eq ?_ (Nat.zero_le _) (by omega) (Nat.le_refl _)
  intro i item hitem
  rw [← Array.getElem?_toList, hitems, List.getElem?_append] at hitem
  split at hitem
  next hlt =>
    exact ⟨fun _ => hlt, fun _ => hfront item (List.mem_of_getElem? hitem)⟩
  next hge =>
    exact ⟨fun h => absurd h (hback item (List.mem_of_getElem? hitem)), fun h => absurd h hge⟩

namespace Snapshot

variable {snapshot : Snapshot}

/-- The terms ascend. -/
def Ordered (snapshot : Snapshot) : Prop :=
  snapshot.slots.toList.Pairwise fun a b => a.term < b.term

/-- Behind the first term that is not below a text, none is. -/
theorem Ordered.dropWhile (h : snapshot.Ordered) {text : String} :
    ∀ slot ∈ snapshot.slots.toList.dropWhile (fun slot => slot.term < text),
      ¬ slot.term < text := by
  unfold Ordered at h
  generalize snapshot.slots.toList = slots at h
  induction slots with
  | nil => simp
  | cons first rest ih =>
    obtain ⟨hfirst, hrest⟩ := List.pairwise_cons.1 h
    by_cases hbelow : first.term < text
    · simp only [List.dropWhile_cons, decide_eq_true hbelow, if_true]
      exact ih hrest
    · simp only [List.dropWhile_cons, decide_eq_false hbelow, Bool.false_eq_true, if_false]
      intro slot hslot hlt
      rcases List.mem_cons.1 hslot with rfl | hlater
      · exact hbelow hlt
      · exact hbelow (String.lt_trans (hfirst slot hlater) hlt)

theorem placeOf_eq (h : snapshot.Ordered) (text : String) :
    snapshot.placeOf text
      = (snapshot.slots.toList.takeWhile fun slot => slot.term < text).length := by
  refine lowerBound_eq List.takeWhile_append_dropWhile.symm ?_ ?_
  · intro slot hslot
    exact List.mem_takeWhile_imp (p := fun slot : Slot => decide (slot.term < text)) hslot
  · intro slot hslot
    simpa using h.dropWhile slot hslot

/-- What is left from the place of a text on are the terms that are not below it. -/
theorem drop_placeOf (h : snapshot.Ordered) (text : String) :
    snapshot.slots.toList.drop (snapshot.placeOf text)
      = snapshot.slots.toList.dropWhile fun slot => slot.term < text := by
  have hsplit : snapshot.slots.toList.takeWhile (fun slot => slot.term < text)
      ++ snapshot.slots.toList.dropWhile (fun slot => slot.term < text)
        = snapshot.slots.toList := List.takeWhile_append_dropWhile
  rw [placeOf_eq h]
  calc snapshot.slots.toList.drop _
      = (snapshot.slots.toList.takeWhile (fun slot => slot.term < text)
          ++ snapshot.slots.toList.dropWhile (fun slot => slot.term < text)).drop _ := by
        rw [hsplit]
    _ = _ := List.drop_left

/-- **A term is found if it is there.** -/
theorem slot?_eq_some (h : snapshot.Ordered) {term : String} {slot : Slot} :
    snapshot.slot? term = some slot ↔ slot ∈ snapshot.slots.toList ∧ slot.term = term := by
  have hhead : snapshot.slots[snapshot.placeOf term]?
      = (snapshot.slots.toList.dropWhile fun slot => slot.term < term).head? := by
    rw [← drop_placeOf h, List.head?_drop, Array.getElem?_toList]
  rw [slot?, hhead, Option.filter_eq_some_iff]
  constructor
  · rintro ⟨hfirst, hterm⟩
    refine ⟨?_, of_decide_eq_true hterm⟩
    exact (List.dropWhile_sublist _).subset (List.mem_of_head? hfirst)
  · rintro ⟨hmem, rfl⟩
    refine ⟨?_, decide_eq_true rfl⟩
    unfold Ordered at h
    clear hhead
    generalize snapshot.slots.toList = slots at h hmem
    -- Terms below the one sought are dropped, and it is the first of those left.
    induction slots with
    | nil => cases hmem
    | cons first rest ih =>
      obtain ⟨hfirst, hrest⟩ := List.pairwise_cons.1 h
      by_cases hbelow : first.term < slot.term
      · simp only [List.dropWhile_cons, decide_eq_true hbelow, if_true]
        rcases List.mem_cons.1 hmem with rfl | hlater
        · exact absurd hbelow (String.lt_irrefl _)
        · exact ih hrest hlater
      · simp only [List.dropWhile_cons, decide_eq_false hbelow, Bool.false_eq_true, if_false]
        rcases List.mem_cons.1 hmem with rfl | hlater
        · rfl
        · exact absurd (hfirst slot hlater) hbelow

/-- All terms of a snapshot are found, and no others. -/
theorem walk?_isSome (h : snapshot.Ordered) {term : String} :
    (snapshot.walk? term).isSome ↔ term ∈ snapshot.terms := by
  rw [walk?, Option.isSome_map, Option.isSome_iff_exists, terms, List.mem_map]
  exact exists_congr fun slot => slot?_eq_some h

end Snapshot
end InvertedIndex
