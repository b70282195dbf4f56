import InvertedIndex.Proofs.Snapshot.Open

/-!
# `Proofs.Snapshot.Blobs` — regions in a file that was cut short

The regions of a data file follow one another without gaps, and the last one ends where the file
does. In a file that was cut short, then, the regions up to the cut are found as before, and the
first behind it is not: it does not lie within what is left. The checks of both index files come to
the first region that is not found, so they report every cut.

## Contents
- `regionAt?_take`: a region in a file that was cut short;
- `globalsFault?_take`: the check of the blobs; `globalIndex_length`;
- `readSlots_take`: the index of the terms, read with data that was cut short.
-/

namespace InvertedIndex

/-! ## One region -/

section Region

variable {front bytes rest : Bytes} {n : Nat}

/-- What is left of a region, if its header is left, has too few bytes for its length. -/
theorem regionAt?_cut (hsize : bytes.length < 2 ^ 32)
    (hcut : n < front.length + (region bytes).length) :
    regionAt? ((front ++ (region bytes ++ rest)).take n) (front.length + regionHeader) = none := by
  rw [region_length, regionHeader] at hcut
  have hlength : bytes.length.toUInt32.toNat = bytes.length := Nat.mod_eq_of_lt hsize
  have hdrop : ((front ++ (region bytes ++ rest)).take n).drop front.length
      = (region bytes ++ rest).take (n - front.length) := by
    rw [List.drop_take, List.drop_left]
  rw [regionAt?, if_neg (by omega), Nat.add_sub_cancel, hdrop]
  by_cases hheader : 4 ≤ n - front.length
  · -- The header is whole, and says how long the region was.
    have hleft : (region bytes ++ rest).take (n - front.length)
        = Bytes.ofUInt32 bytes.length.toUInt32 ++ (bytes ++ rest).take (n - front.length - 4) := by
      rw [region, List.append_assoc, List.take_append, Bytes.ofUInt32_length,
        List.take_of_length_le (by simpa using hheader)]
    rw [hleft, Bytes.readUInt32?_ofUInt32]
    show (Bytes.take? bytes.length.toUInt32.toNat _).map Prod.fst = none
    rw [hlength]
    cases htake : Bytes.take? bytes.length ((bytes ++ rest).take (n - front.length - 4)) with
    | none => rfl
    | some found =>
      have hfound := Bytes.take?_length htake
      rw [List.length_take] at hfound
      omega
  · cases hread : Bytes.readUInt32? ((region bytes ++ rest).take (n - front.length)) with
    | none => rfl
    | some found =>
      have hfound := Bytes.readUInt32?_length hread
      rw [List.length_take] at hfound
      omega

/-- **A region is found in front of a cut**, and not across it. -/
theorem regionAt?_take (hsize : bytes.length < 2 ^ 32) (rest : Bytes) (n : Nat) :
    regionAt? ((front ++ (region bytes ++ rest)).take n) (front.length + regionHeader)
      = if front.length + (region bytes).length ≤ n then some bytes else none := by
  split
  next hkept =>
    have htake : (front ++ (region bytes ++ rest)).take n
        = front ++ (region bytes ++ rest.take (n - (front ++ region bytes).length)) := by
      rw [← List.append_assoc, List.take_append,
        List.take_of_length_le (by rwa [List.length_append]), List.append_assoc]
    rw [htake]
    exact regionAt?_region hsize _
  next hcut => exact regionAt?_cut hsize (Nat.lt_of_not_le hcut)

end Region

/-! ## Blobs -/

theorem globalData_cons (record : GlobalRecord) (rest : List GlobalRecord) :
    globalData (record :: rest) = region record.blob ++ globalData rest := List.flatMap_cons ..

/-- The index of the blobs consists of whole entries. -/
theorem globalIndex_length (next offset : Nat) (records : List GlobalRecord) :
    (globalIndex next offset records).length % 8 = 0 := by
  induction records generalizing next offset with
  | nil => rfl
  | cons record rest ih =>
    have hrest := ih (record.id.toNat + 1) (offset + regionHeader + record.blob.length)
    simp only [globalIndex, List.length_append, List.length_replicate, Bytes.ofUInt64_length]
    omega

section Fault

variable {data : Bytes} {id : Nat}

/-- The check of an id: it has no blob, or its region lies within the data. -/
theorem globalsFault?_cons (offset : UInt64) (rest : Bytes) :
    globalsFault? data id (Bytes.ofUInt64 offset ++ rest)
      = if offset ≠ 0 ∧ (regionAt? data offset.toNat).isNone then some (.globalRange id)
        else globalsFault? data (id + 1) rest := by
  rw [globalsFault?]
  split
  next hread =>
    rw [Bytes.readUInt64?_ofUInt64] at hread
    cases hread
  next hread =>
    rw [Bytes.readUInt64?_ofUInt64] at hread
    cases hread
    rfl

/-- Ids without blobs are passed over. -/
theorem globalsFault?_zeros (count : Nat) (rest : Bytes) :
    globalsFault? data id (List.replicate (8 * count) 0 ++ rest)
      = globalsFault? data (id + count) rest := by
  induction count generalizing id with
  | zero => rfl
  | succ count ih =>
    have hfirst : List.replicate (8 * (count + 1)) (0 : UInt8)
        = Bytes.ofUInt64 0 ++ List.replicate (8 * count) 0 := by
      rw [Nat.mul_add, Nat.add_comm, List.replicate_add]
      rfl
    rw [hfirst, List.append_assoc, globalsFault?_cons, if_neg (fun h => h.1 rfl), ih,
      Nat.add_right_comm, Nat.add_assoc]

/-- A fault of the blobs names the first id whose blob is not found. -/
theorem globalsFault?_eq_some {index : Bytes} {fault : Corruption}
    (h : globalsFault? data id index = some fault) : ∃ id, fault = .globalRange id := by
  fun_induction globalsFault? data id index with
  | case1 => cases h
  | case2 id =>
    cases h
    exact ⟨id, rfl⟩
  | case3 _ _ _ _ _ _ ih => exact ih h

end Fault

/-- **The blobs are all found if nothing was cut off**, and one is not if anything was. -/
theorem globalsFault?_take {records : List GlobalRecord} {front : Bytes} (next id : Nat) {n : Nat}
    (hroom : front.length + (globalData records).length < 2 ^ 64)
    (hsizes : ∀ record ∈ records, record.blob.length < 2 ^ 32) (hfront : front.length ≤ n) :
    globalsFault? ((front ++ globalData records).take n) id
        (globalIndex next (front.length + regionHeader) records) = none
      ↔ front.length + (globalData records).length ≤ n := by
  -- On the records, for any data in front: the offsets count from the start of the file.
  induction records generalizing front next id with
  | nil => exact iff_of_true (Snapshot.globalsFault?_nil _ _) hfront
  | cons record rest ih =>
    obtain ⟨hsize, hrest⟩ := List.forall_mem_cons.1 hsizes
    rw [globalData_cons] at hroom ⊢
    rw [List.length_append] at hroom ⊢
    have hplace : (front.length + regionHeader).toUInt64.toNat = front.length + regionHeader := by
      apply Nat.mod_eq_of_lt
      rw [region_length] at hroom
      omega
    have hnonzero : (front.length + regionHeader).toUInt64 ≠ 0 := by
      intro hzero
      rw [hzero] at hplace
      exact absurd hplace (Nat.ne_of_lt (Nat.succ_pos _))
    rw [globalIndex, List.append_assoc, globalsFault?_zeros, globalsFault?_cons, hplace,
      regionAt?_take hsize]
    by_cases hkept : front.length + (region record.blob).length ≤ n
    · rw [if_pos hkept, if_neg (fun h => Bool.false_ne_true h.2), next_offset, ← List.append_assoc]
      rw [← Nat.add_assoc, ← List.length_append]
      apply ih
      · rw [List.length_append]
        omega
      · exact hrest
      · rwa [List.length_append]
    · rw [if_neg hkept, if_pos ⟨hnonzero, rfl⟩]
      refine iff_of_false nofun ?_
      omega

/-! ## Terms -/

theorem termData_pos {images : List TermImage} {image : TermImage} (h : image ∈ images) :
    0 < (termData images).length := by
  apply List.length_pos_iff.2
  intro hnil
  have hregion : (region image.data).length = 0 :=
    List.length_eq_zero_iff.2 (List.flatMap_eq_nil_iff.1 hnil image h)
  rw [region_length] at hregion
  exact absurd hregion (Nat.ne_of_gt (Nat.add_pos_left (by decide) _))

/-- **Cut short, the data has a term whose region is not found.** -/
theorem readSlots_take {images : List TermImage} {front : Bytes} (total : Nat)
    {last : Option String} {n : Nat} (hroom : front.length + (termData images).length < 2 ^ 64)
    (himages : ∀ image ∈ images, image.Findable)
    (hasc : images.Pairwise fun a b => a.term < b.term)
    (hlast : ∀ before ∈ last, ∀ image ∈ images, before < image.term)
    (hfront : front.length ≤ n) (hcut : n < front.length + (termData images).length) :
    ∃ place, readSlots ((front ++ termData images).take n) total last
      (termIndex (front.length + regionHeader) images) = .error (.termRange place) := by
  induction images generalizing front last with
  | nil => exact absurd hcut (Nat.not_lt_of_le hfront)
  | cons image rest ih =>
    obtain ⟨himage, hrest⟩ := List.forall_mem_cons.1 himages
    obtain ⟨hbehind, hasc'⟩ := List.pairwise_cons.1 hasc
    rw [termData_cons] at hroom hcut ⊢
    rw [List.length_append] at hroom hcut
    have hoffset : front.length + regionHeader < 2 ^ 64 := by
      rw [region_length] at hroom
      omega
    have hfound := @regionAt?_take front _ himage.data (termData rest) n
    by_cases hkept : front.length + (region image.data).length ≤ n
    · -- The region is in front of the cut, so the cut is behind it.
      rw [if_pos hkept] at hfound
      obtain ⟨place, hplace⟩ : ∃ place, readSlots
          ((front ++ region image.data ++ termData rest).take n) total (some image.term)
          (termIndex ((front ++ region image.data).length + regionHeader) rest)
            = .error (.termRange place) := by
        apply ih _ hrest hasc'
        · intro before hbefore other hother
          cases hbefore
          exact hbehind other hother
        · rwa [List.length_append]
        · rw [List.length_append]
          omega
        · rw [List.length_append]
          omega
      refine ⟨place, ?_⟩
      rw [readSlots_found hoffset himage.term hfound
        (fun before hbefore => hlast before hbefore image List.mem_cons_self), next_offset,
        ← List.append_assoc, hplace]
      rfl
    · rw [if_neg hkept] at hfound
      exact readSlots_absent hoffset himage.term hfound

end InvertedIndex
