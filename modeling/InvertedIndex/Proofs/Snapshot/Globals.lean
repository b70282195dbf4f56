import InvertedIndex.Proofs.Snapshot.Truncation
import Mathlib.Data.List.MinMax

/-!
# `Proofs.Snapshot.Globals` — blobs given back

The index of the blobs has an entry for each id up to the largest, so the entry of an id is found by
its place alone. Ids without a blob are passed over by entries of zeros, which no region has as its
offset. Of several blobs given for a document the sorter returns the first, so that is the one found.

## Contents
- `blobAt?`: what an entry of the index stands for; `blobAt?_globalIndex`: the entry of each id;
- `entryCount`, `globalIndex_length_eq`: how many entries there are;
- `firstBlob?`, `RunSorter.find?_finish`: which blob counts;
- `Took.globals_short`: there is always room for the blobs;
- `Took.finish_globals`, `Draft.blobs_found`: the blobs in the snapshot of a draft;
  `Draft.refused_blob_not_found`: one that is too large.
-/

namespace InvertedIndex

/-! ## Entries -/

/-- The blob that the entry at the front of an index stands for. -/
def blobAt? (data index : Bytes) : Option Bytes :=
  match Bytes.readUInt64? index with
  | none => none
  | some (offset, _) => if offset = 0 then none else regionAt? data offset.toNat

/-- The blob of an id is that of the entry in its place. -/
theorem Snapshot.global?_eq (snapshot : Snapshot) (id : DocId) : snapshot.global? id
    = blobAt? snapshot.globalData (snapshot.globalIndex.drop (8 * id.toNat)) := rfl

section Entries

variable {data : Bytes}

theorem blobAt?_entry (offset : UInt64) (rest : Bytes) :
    blobAt? data (Bytes.ofUInt64 offset ++ rest)
      = if offset = 0 then none else regionAt? data offset.toNat := by
  rw [blobAt?, Bytes.readUInt64?_ofUInt64]

/-- An entry among those of ids without a blob stands for none. -/
theorem blobAt?_zeros {count place : Nat} (hplace : place < count) (rest : Bytes) :
    blobAt? data ((List.replicate (8 * count) 0 ++ rest).drop (8 * place)) = none := by
  have hfirst : (List.replicate (8 * count) (0 : UInt8)).drop (8 * place)
      = Bytes.ofUInt64 0 ++ List.replicate (8 * (count - place - 1)) 0 := by
    have hzero : Bytes.ofUInt64 0 = List.replicate 8 0 := rfl
    rw [List.drop_replicate, hzero, List.replicate_append_replicate]
    congr 1
    omega
  rw [List.drop_append_of_le_length (by rw [List.length_replicate]; omega), hfirst,
    List.append_assoc, blobAt?_entry, if_pos rfl]

/-- Behind the ids without a blob and the one that has it stand the entries of all others. -/
theorem drop_entry (gap place : Nat) (offset : UInt64) (rest : Bytes) :
    (List.replicate (8 * gap) 0 ++ (Bytes.ofUInt64 offset ++ rest)).drop (8 * (gap + 1 + place))
      = rest.drop (8 * place) := by
  have hlength : (List.replicate (8 * gap) 0 ++ Bytes.ofUInt64 offset).length = 8 * (gap + 1) := by
    rw [List.length_append, List.length_replicate, Bytes.ofUInt64_length]
    rfl
  rw [← List.append_assoc, Nat.mul_add, ← List.drop_drop, ← hlength, List.drop_left]

end Entries

/-- **The entry of each id** stands for its blob: the regions of the blobs follow one another, and so
    do their offsets. -/
theorem blobAt?_globalIndex {records : List GlobalRecord} {front : Bytes} {next : Nat}
    (hroom : front.length + (globalData records).length < 2 ^ 64)
    (hsizes : ∀ record ∈ records, record.blob.length < 2 ^ 32)
    (hasc : records.Pairwise fun a b => a.id < b.id)
    (hnext : ∀ record ∈ records, next ≤ record.id.toNat) (place : Nat) :
    blobAt? (front ++ globalData records)
        ((globalIndex next (front.length + regionHeader) records).drop (8 * place))
      = (records.find? fun record => record.id.toNat = next + place).map GlobalRecord.blob := by
  -- On the records, for any data in front and any first id.
  induction records generalizing front next place with
  | nil =>
    rw [globalIndex, List.drop_nil]
    rfl
  | cons record rest ih =>
    obtain ⟨hsize, hsizes'⟩ := List.forall_mem_cons.1 hsizes
    obtain ⟨hbehind, hasc'⟩ := List.pairwise_cons.1 hasc
    obtain ⟨hfirst, -⟩ := List.forall_mem_cons.1 hnext
    have hbehind' : ∀ other ∈ rest, record.id.toNat + 1 ≤ other.id.toNat := fun other hother =>
      UInt32.lt_iff_toNat_lt.1 (hbehind other hother)
    rw [globalData_cons] at hroom ⊢
    rw [List.length_append, region_length] at hroom
    have hoffset : (front.length + regionHeader).toUInt64.toNat = front.length + regionHeader :=
      Nat.mod_eq_of_lt (by omega)
    rw [globalIndex, List.append_assoc]
    rcases Nat.lt_trichotomy place (record.id.toNat - next) with hgap | rfl | hover
    · -- An id in front of the record has no blob.
      rw [blobAt?_zeros hgap, List.find?_eq_none.2, Option.map_none]
      intro other hother hsame
      have hplace : other.id.toNat = next + place := of_decide_eq_true hsame
      rcases List.mem_cons.1 hother with rfl | hrest
      · omega
      · have := hbehind' other hrest
        omega
    · have hnonzero : (front.length + regionHeader).toUInt64 ≠ 0 := by
        intro hzero
        rw [hzero] at hoffset
        exact absurd hoffset (Nat.ne_of_lt (Nat.succ_pos _))
      rw [List.drop_left' (by rw [List.length_replicate]), blobAt?_entry, if_neg hnonzero, hoffset,
        regionAt?_region hsize, List.find?_cons_of_pos, Option.map_some]
      exact decide_eq_true (by omega)
    · obtain ⟨k, rfl⟩ : ∃ k, place = record.id.toNat - next + 1 + k :=
        ⟨place - (record.id.toNat - next + 1), by omega⟩
      have hplace : next + (record.id.toNat - next + 1 + k) = record.id.toNat + 1 + k := by omega
      have hroom' : (front ++ region record.blob).length + (globalData rest).length < 2 ^ 64 := by
        rw [List.length_append, region_length]
        omega
      rw [drop_entry, next_offset, ← List.append_assoc, ih hroom' hsizes' hasc' hbehind' k, hplace,
        List.find?_cons_of_neg]
      exact fun hsame => absurd (of_decide_eq_true hsame) (by omega)

/-- How many entries the index of some blobs has: one for each id up to the largest. -/
def entryCount (records : List GlobalRecord) : Nat :=
  (records.map fun record => record.id.toNat + 1).foldr max 0

theorem globalIndex_length_eq {records : List GlobalRecord} {next : Nat} (offset : Nat)
    (hasc : records.Pairwise fun a b => a.id < b.id)
    (hnext : ∀ record ∈ records, next ≤ record.id.toNat) :
    (globalIndex next offset records).length = 8 * (max next (entryCount records) - next) := by
  induction records generalizing next offset with
  | nil =>
    show 0 = 8 * (max next 0 - next)
    omega
  | cons record rest ih =>
    obtain ⟨hbehind, hasc'⟩ := List.pairwise_cons.1 hasc
    obtain ⟨hfirst, -⟩ := List.forall_mem_cons.1 hnext
    have hcount : entryCount (record :: rest) = max (record.id.toNat + 1) (entryCount rest) := rfl
    rw [globalIndex, List.length_append, List.length_append, List.length_replicate,
      Bytes.ofUInt64_length, ih _ hasc' fun other hother =>
        UInt32.lt_iff_toNat_lt.1 (hbehind other hother), hcount]
    omega

/-! ## Room -/

/-- There are no more blobs than ids. -/
theorem globals_length_le {records : List GlobalRecord}
    (hvalid : ∀ record ∈ records, record.id.Valid)
    (hasc : records.Pairwise fun a b => a.id < b.id) : records.length ≤ 2 ^ 27 := by
  have hnodup : (records.map fun record => record.id.toNat).Nodup := by
    refine List.pairwise_map.2 (hasc.imp ?_)
    intro a b hlt
    exact Nat.ne_of_lt (UInt32.lt_iff_toNat_lt.1 hlt)
  have hsubset : (records.map fun record => record.id.toNat) ⊆ List.range (2 ^ 27) := by
    refine List.forall_mem_map.2 fun record hrecord => ?_
    exact List.mem_range.2 (DocId.le_largest_iff.1 (hvalid record hrecord).2)
  have hle := (List.subperm_of_subset hnodup hsubset).length_le
  rwa [List.length_map, List.length_range] at hle

theorem globalData_length_le {records : List GlobalRecord}
    (hsizes : ∀ record ∈ records, record.blob.length < 2 ^ 32) :
    (globalData records).length ≤ (2 ^ 32 + 3) * records.length := by
  induction records with
  | nil => exact Nat.le_refl 0
  | cons record rest ih =>
    obtain ⟨hsize, hrest⟩ := List.forall_mem_cons.1 hsizes
    have hbehind := ih hrest
    rw [globalData_cons, List.length_append, region_length, regionHeader, List.length_cons]
    omega

/-! ## The first blob -/

/-- The blob that is given first for an id. -/
def firstBlob? (records : List GlobalRecord) (id : DocId) : Option Bytes :=
  (records.find? fun record => record.id = id).map GlobalRecord.blob

section Sorter

variable {sorter : RunSorter GlobalRecord} {arrived : List GlobalRecord}

/-- A sorter keeps the first blob of each id. -/
theorem firstBlob?_finish (h : sorter.Holds arrived) (id : DocId) :
    firstBlob? sorter.finish id = firstBlob? arrived id := by
  have hfirst := RunSorter.find?_finish h ⟨id, []⟩
  rw [GlobalRecord.sameKey_eq] at hfirst
  rw [firstBlob?, hfirst, firstBlob?]

theorem finish_ids_ascending (h : sorter.Holds arrived) :
    sorter.finish.Pairwise fun a b => a.id < b.id :=
  (RunSorter.finish_strictlySorted h).imp fun hlt => compareOfLessAndEq_eq_lt.1 hlt

/-- The ids returned are those that arrived, -/
theorem mem_finish_ids (h : sorter.Holds arrived) {id : DocId} :
    id ∈ sorter.finish.map GlobalRecord.id ↔ id ∈ arrived.map GlobalRecord.id := by
  obtain ⟨-, hmem, hkept⟩ := RunSorter.finish_spec h
  constructor
  · intro hid
    obtain ⟨record, hrecord, rfl⟩ := List.mem_map.1 hid
    exact List.mem_map_of_mem (hmem record hrecord)
  · intro hid
    obtain ⟨record, hrecord, rfl⟩ := List.mem_map.1 hid
    obtain ⟨kept, hin, hsame⟩ := hkept record hrecord
    exact List.mem_map.2 ⟨kept, hin, Std.compare_eq_iff_eq.1 hsame⟩

/-- each of them once. -/
theorem finish_length_eq (h : sorter.Holds arrived) :
    sorter.finish.length = (arrived.map GlobalRecord.id).toFinset.card := by
  have hnodup : (sorter.finish.map GlobalRecord.id).Nodup :=
    List.pairwise_map.2 ((finish_ids_ascending h).imp UInt32.ne_of_lt)
  have hsame : (arrived.map GlobalRecord.id).toFinset
      = (sorter.finish.map GlobalRecord.id).toFinset := by
    ext id
    rw [List.mem_toFinset, List.mem_toFinset, mem_finish_ids h]
  rw [hsame, List.toFinset_card_of_nodup hnodup, List.length_map]

end Sorter

/-- Blobs of the same ids need as many entries. -/
theorem entryCount_congr {records others : List GlobalRecord}
    (h : ∀ id, id ∈ records.map GlobalRecord.id ↔ id ∈ others.map GlobalRecord.id) :
    entryCount records = entryCount others := by
  have hle {a b : List GlobalRecord}
      (hab : ∀ id, id ∈ a.map GlobalRecord.id → id ∈ b.map GlobalRecord.id) :
      entryCount a ≤ entryCount b := by
    refine List.max_le_of_forall_le _ _ (List.forall_mem_map.2 fun record hrecord => ?_)
    obtain ⟨other, hother, hid⟩ := List.mem_map.1 (hab _ (List.mem_map_of_mem hrecord))
    rw [← hid]
    exact List.le_max_of_le (List.mem_map_of_mem hother) (Nat.le_refl _)
  exact Nat.le_antisymm (hle fun id => (h id).1) (hle fun id => (h id).2)

/-! ## Drafts -/

namespace Draft

variable {settings : BuildSettings} {draft : Draft} {additions : List Addition}

/-- **There is always room for the blobs**: their offsets fit into eight bytes. -/
theorem Took.globals_short (h : draft.Took settings additions) :
    (globalData draft.globals.finish).length < 2 ^ 64 := by
  have htaken := h.blob_taken
  have hcount := globals_length_le (fun record hrecord => (htaken record hrecord).id)
    (finish_ids_ascending h.globals)
  have hlength := globalData_length_le fun record hrecord => (htaken record hrecord).size
  omega

/-- The blobs are counted. -/
theorem finish_globals_eq {files : SnapshotFiles} {stats : BuildStats}
    (hfinish : draft.finish = .ok (files, stats)) :
    stats.globals = draft.globals.finish.length := by
  obtain ⟨images, -, h⟩ := bind_eq_ok.1 hfinish
  cases h
  rfl

/-- **A snapshot gives back the blobs** that its draft was given. -/
theorem Took.finish_globals (h : draft.Took settings additions) {files : SnapshotFiles}
    {stats : BuildStats} (hfinish : draft.finish = .ok (files, stats)) (hshort : files.Short) :
    stats.globals = ((additions.filterMap Addition.blob?).map GlobalRecord.id).toFinset.card ∧
    (∃ index, files .globalIndex = some index ∧
      index.length = 8 * entryCount (additions.filterMap Addition.blob?)) ∧
    ∀ base opening, ∃ snapshot, Snapshot.open? base opening files = .ok snapshot ∧
      ∀ id, snapshot.global? id = firstBlob? (additions.filterMap Addition.blob?) id := by
  have hasc := finish_ids_ascending h.globals
  obtain ⟨images, -, hopen⟩ := h.finish_opens hfinish hshort
  refine ⟨?_, ?_, fun base opening => ⟨_, hopen base opening, fun id => ?_⟩⟩
  · rw [finish_globals_eq hfinish, finish_length_eq h.globals]
  · obtain ⟨-, -, -, hindex, -⟩ := finish_eq_ok hfinish
    refine ⟨_, hindex, ?_⟩
    rw [globalIndex_length_eq _ hasc fun _ _ => Nat.zero_le _, Nat.zero_max, Nat.sub_zero,
      entryCount_congr fun id => mem_finish_ids h.globals]
  · have hfound := @blobAt?_globalIndex draft.globals.finish [] 0
      (by simpa using h.globals_short) (fun record hrecord => (h.blob_taken record hrecord).size)
      hasc (fun _ _ => Nat.zero_le _) id.toNat
    rw [List.length_nil, List.nil_append, Nat.zero_add] at hfound
    simp only [Nat.zero_add, UInt32.toNat_inj] at hfound
    rw [Snapshot.global?_eq, ← firstBlob?_finish h.globals]
    exact hfound

/-- What a run of blobs leaves. -/
theorem filterMap_blob? (calls : List GlobalRecord) :
    (calls.map Addition.blob).filterMap Addition.blob? = calls.filter fun call => call.Taken := by
  rw [List.filterMap_map, ← List.filterMap_eq_filter]
  refine List.filterMap_congr fun call _ => ?_
  by_cases htaken : call.Taken
  · simp [Addition.blob?, htaken, Option.guard]
  · simp [Addition.blob?, htaken, Option.guard]

/-- Blobs alone can always be finished, and their files are not too long to be opened. -/
theorem exists_finish_blobs (settings : BuildSettings) (calls : List GlobalRecord) :
    ∃ files stats, (run settings (calls.map .blob)).finish = .ok (files, stats) ∧ files.Short := by
  have htook := run_took settings (calls.map .blob)
  have hterms : (calls.map Addition.blob).filterMap (Addition.record? settings.maxPosition)
      = [] := by
    rw [List.filterMap_map]
    exact List.filterMap_eq_nil_iff.2 fun _ _ => rfl
  have hrecords := htook.terms
  rw [hterms] at hrecords
  -- Without terms there is nothing that could be too large.
  obtain ⟨files, stats, hfinish, hroom⟩ := finish_few hrecords (Nat.zero_le _)
  exact ⟨files, stats, hfinish, short_of_finish hfinish htook.globals_short hroom⟩

/-- **Every blob is found again.** Of some blobs in any order, with any budgets, each is refused for
    its id or its size alone. The draft of the others can always be finished, and its files opened,
    verified or not. For each id the snapshot has the first blob that was taken for it, and none for
    an id that no blob was taken for. The index has an entry of eight bytes for each id up to the
    largest, and the ids with a blob are counted. -/
theorem blobs_found (settings : BuildSettings) (calls : List GlobalRecord) :
    let taken := calls.filter fun call => call.Taken
    (new settings).faults (calls.map .blob)
        = calls.map (fun call => (Addition.blob call).refusal?) ∧
      ∃ files stats, (run settings (calls.map .blob)).finish = .ok (files, stats) ∧
        stats.globals = (taken.map GlobalRecord.id).toFinset.card ∧
        (∃ index, files .globalIndex = some index ∧ index.length = 8 * entryCount taken) ∧
        ∀ base opening, ∃ snapshot, Snapshot.open? base opening files = .ok snapshot ∧
          ∀ id, snapshot.global? id = firstBlob? taken id := by
  intro taken
  obtain ⟨files, stats, hfinish, hshort⟩ := exists_finish_blobs settings calls
  have hfound := (run_took settings (calls.map .blob)).finish_globals hfinish hshort
  rw [filterMap_blob?] at hfound
  refine ⟨?_, files, stats, hfinish, hfound⟩
  rw [faults_eq, List.map_map]
  rfl

/-- **A refused blob is not found**, even if it was given first: here a blob of `2 ^ 32` bytes comes
    before one of a single byte, and the snapshot has the latter. -/
theorem refused_blob_not_found :
    let calls : List GlobalRecord := [⟨5, List.replicate UInt32.size 0⟩, ⟨5, [97]⟩]
    ∃ files stats snapshot, (run {} (calls.map .blob)).finish = .ok (files, stats) ∧
      Snapshot.open? "idx" {} files = .ok snapshot ∧ snapshot.global? 5 = some [97] ∧
      snapshot.global? 5 ≠ firstBlob? calls 5 := by
  intro calls
  obtain ⟨files, stats, hfinish, hshort⟩ := exists_finish_blobs {} calls
  have hfound := (run_took {} (calls.map .blob)).finish_globals hfinish hshort
  rw [filterMap_blob?] at hfound
  obtain ⟨-, -, hopens⟩ := hfound
  obtain ⟨snapshot, hopen, hglobals⟩ := hopens "idx" {}
  have hlarge : ¬ GlobalRecord.Taken ⟨5, List.replicate UInt32.size 0⟩ := fun htaken =>
    absurd htaken.size (Nat.not_lt_of_le (Nat.le_of_eq List.length_replicate.symm))
  have hsmall : GlobalRecord.Taken ⟨5, [97]⟩ := ⟨by decide, by decide⟩
  have htaken : (calls.filter fun call => call.Taken) = [⟨5, [97]⟩] := by
    rw [List.filter_cons_of_neg (by simpa using hlarge),
      List.filter_cons_of_pos (by simpa using hsmall)]
    rfl
  have hglobal : snapshot.global? 5 = some [97] := by
    rw [hglobals, htaken]
    rfl
  refine ⟨files, stats, snapshot, hfinish, hopen, hglobal, fun hfirst => ?_⟩
  have hsame : some ([97] : Bytes) = some (List.replicate UInt32.size 0) := hglobal.symm.trans hfirst
  have hlength := congrArg List.length (Option.some.inj hsame)
  rw [List.length_replicate] at hlength
  exact absurd hlength (by decide)

end Draft
end InvertedIndex
