import InvertedIndex.Proofs.Snapshot.Additions
import InvertedIndex.Proofs.Snapshot.ByteOrder
import Mathlib.Data.List.Fold
import Mathlib.Data.List.MinMax

/-!
# `Proofs.Snapshot.RoundTrip` — a snapshot gives back what its draft was given

Of the occurrences given to a draft some are refused and some left out. The snapshot of the finished
draft has the terms of the others, and under each term its documents with all positions there. Of
several values for one position the first given is there. A document with no other position than `0`
has its value stored bare, without a list. What is counted while the files are written are the terms,
the groups and the documents that are found in them.

## Contents
- `firstValue?`, `OnlyAtZero`: what records say of a document;
- `SnapshotWalk.Tells`, `SnapshotWalk.Recounts`, `Snapshot.Recounts`, `BuildStats.Recounts`: what a
  snapshot should say of records;
- `mem_finish_iff`: a sorter keeps the first value for each position;
- `KeepsFirst.recounts`, `KeepsFirst.snapshot_recounts`, `KeepsFirst.stats_recounts`;
- `Draft.round_trip`: the snapshot of a draft says all that its records say.
-/

namespace InvertedIndex

/-! ## What records say of a document -/

/-- The value that the records give first for a term at a position of a document. -/
def firstValue? (records : List TermRecord) (term : String) (id : DocId) (position : Position) :
    Option Int32 :=
  (records.find? fun record => record.term = term ∧ record.id = id ∧
    record.position = position).map TermRecord.value

/-- The records give a term no other position in a document than `0`. -/
def OnlyAtZero (records : List TermRecord) (term : String) (id : DocId) : Prop :=
  ∀ record ∈ records, record.term = term → record.id = id → record.position = 0

/-! ## What a snapshot should say of records -/

/-- A walk that stands on a document shows the bare value at position `0`, if that is the only
    position, and else the list of all positions with their values. -/
structure SnapshotWalk.Tells (walk : SnapshotWalk) (records : List TermRecord) (term : String) :
    Prop where
  bare : OnlyAtZero records term walk.current →
    firstValue? records term walk.current 0 = some walk.value ∧
      walk.occurrences = [] ∧ IdStream.window walk = []
  value : ¬ OnlyAtZero records term walk.current → walk.value = 0
  ascending : (IdStream.window walk).Pairwise (· < ·)
  mem_window : ¬ OnlyAtZero records term walk.current → ∀ position,
    position ∈ IdStream.window walk ↔ ∃ record ∈ records, record.term = term ∧
      record.id = walk.current ∧ record.position = position
  mem_occurrences : ¬ OnlyAtZero records term walk.current → ∀ position value,
    ⟨position, value⟩ ∈ walk.occurrences ↔
      firstValue? records term walk.current position = some value

/-- A walk goes through the documents of a term in order, and tells of each. -/
structure SnapshotWalk.Recounts (walk : SnapshotWalk) (records : List TermRecord) (term : String) :
    Prop where
  ascending : (IdStream.ids walk).Pairwise (· < ·)
  mem_ids : ∀ id, id ∈ IdStream.ids walk ↔ ∃ record ∈ records, record.term = term ∧ record.id = id
  tells : ∀ state ∈ IdStream.drain walk, state.current ≠ 0 → state.Tells records term

/-- The length of the longest list that a walk comes across, `0` if there is none. -/
def SnapshotWalk.longestList (walk : SnapshotWalk) : Nat :=
  ((IdStream.drain walk).map fun state => state.occurrences.length).foldr max 0

/-- A snapshot has the terms of the records in the order of their bytes, and a walk for each. -/
structure Snapshot.Recounts (snapshot : Snapshot) (records : List TermRecord) : Prop where
  ascending : snapshot.terms.Pairwise fun a b => textBytes a < textBytes b
  mem_terms : ∀ term, term ∈ snapshot.terms ↔ ∃ record ∈ records, record.term = term
  found : ∀ term, (snapshot.walk? term).isSome ↔ term ∈ snapshot.terms
  walks : ∀ term, ∀ walk ∈ snapshot.walk? term, walk.Recounts records term
  longest : ∀ term, (snapshot.longest? term).map UInt32.toNat
    = (snapshot.walk? term).map SnapshotWalk.longestList

/-- The terms of the records are counted, their pairs with a group, and their pairs with a
    document. -/
structure BuildStats.Recounts (stats : BuildStats) (records : List TermRecord) : Prop where
  terms : stats.terms = (records.map TermRecord.term).toFinset.card
  groups : stats.groups = (records.map fun record => (record.term, record.id.group)).toFinset.card
  postings : stats.postings = (records.map fun record => (record.term, record.id)).toFinset.card

/-! ## First values -/

/-- There is a first value wherever there is a record. -/
theorem exists_firstValue? {records : List TermRecord} {term : String} {id : DocId}
    {position : Position} : (∃ value, firstValue? records term id position = some value) ↔
      ∃ record ∈ records, record.term = term ∧ record.id = id ∧ record.position = position := by
  rw [← Option.isSome_iff_exists, firstValue?, Option.isSome_map, List.find?_isSome]
  simp only [decide_eq_true_eq]

/-- **A sorter keeps the first value for each position.** -/
theorem mem_finish_iff {sorter : RunSorter TermRecord} {records : List TermRecord}
    (h : sorter.Holds records) {record : TermRecord} : record ∈ sorter.finish ↔
      firstValue? records record.term record.id record.position = some record.value := by
  -- A key is a term, a document and a position.
  have hsame : RunSorter.sameKey record = fun other => decide (other.term = record.term ∧
      other.id = record.id ∧ other.position = record.position) := by
    funext other
    rw [Bool.eq_iff_iff, RunSorter.sameKey_iff, TermRecord.compareKeys_eq_eq, decide_eq_true_eq]
    constructor
    · rintro ⟨hterm, hid, hposition⟩
      exact ⟨hterm.symm, hid.symm, hposition.symm⟩
    · rintro ⟨hterm, hid, hposition⟩
      exact ⟨hterm.symm, hid.symm, hposition.symm⟩
  rw [RunSorter.mem_finish h, hsame, firstValue?, Option.map_eq_some_iff]
  constructor
  · intro hfind
    exact ⟨record, hfind, rfl⟩
  · rintro ⟨other, hfind, hvalue⟩
    have hkey := List.find?_some hfind
    rw [decide_eq_true_eq] at hkey
    obtain ⟨hterm, hid, hposition⟩ := hkey
    have heq : other = record := by
      rw [TermRecord.mk.injEq]
      exact ⟨hterm, hid, hposition, hvalue⟩
    rw [hfind, heq]

/-! ## Documents -/

/-- In ascending order, a list is written as a bare value if all its positions are `0`. -/
theorem isBare_iff {occurrences : List Occurrence} (hne : occurrences ≠ [])
    (hasc : (occurrences.map Occurrence.position).Pairwise (· < ·)) :
    TermData.isBare occurrences = true ↔ ∀ occurrence ∈ occurrences, occurrence.position = 0 := by
  rcases occurrences with _ | ⟨first, _ | ⟨second, others⟩⟩
  · exact absurd rfl hne
  · rw [List.forall_mem_singleton]
    exact decide_eq_true_iff
  · refine iff_of_false Bool.false_ne_true fun hzero => ?_
    -- Two positions in strict order cannot both be `0`.
    have hlt := List.rel_of_pairwise_cons hasc List.mem_cons_self
    rw [hzero second (List.mem_cons_of_mem _ List.mem_cons_self)] at hlt
    exact absurd hlt UInt16.not_lt_zero

theorem exists_of_isBare {occurrences : List Occurrence}
    (h : TermData.isBare occurrences = true) : ∃ value, occurrences = [⟨0, value⟩] := by
  rcases occurrences with _ | ⟨⟨position, value⟩, _ | ⟨second, others⟩⟩
  · cases h
  · exact ⟨value, by rw [of_decide_eq_true h]⟩
  · cases h

/-- What is not bare has the value `0`. -/
theorem bareValue_contentOf {occurrences : List Occurrence}
    (h : TermData.isBare occurrences = false) :
    (TermData.contentOf occurrences).bareValue = 0 := by
  rcases occurrences with _ | ⟨⟨position, value⟩, _ | ⟨second, others⟩⟩
  · rfl
  · rw [TermData.contentOf, if_neg (of_decide_eq_false h)]
    rfl
  · rfl

/-- Sorted records are those with the first values of other records. -/
structure KeepsFirst (sorted records : List TermRecord) : Prop where
  strict : RunSorter.StrictlySorted sorted
  mem_iff : ∀ record, record ∈ sorted ↔
    firstValue? records record.term record.id record.position = some record.value

section Documents

variable {sorted records : List TermRecord} {term : String}

/-- The same terms, documents and positions are in both. -/
theorem KeepsFirst.exists_iff (h : KeepsFirst sorted records) (P : String → DocId → Position → Prop) :
    (∃ record ∈ sorted, P record.term record.id record.position) ↔
      ∃ record ∈ records, P record.term record.id record.position := by
  constructor
  · rintro ⟨record, hrecord, hP⟩
    obtain ⟨other, hother, hterm, hid, hposition⟩ :=
      exists_firstValue?.1 ⟨_, (h.mem_iff record).1 hrecord⟩
    refine ⟨other, hother, ?_⟩
    rwa [hterm, hid, hposition]
  · rintro ⟨record, hrecord, hP⟩
    obtain ⟨value, hvalue⟩ := exists_firstValue?.2 ⟨record, hrecord, rfl, rfl, rfl⟩
    exact ⟨⟨record.term, record.id, record.position, value⟩, (h.mem_iff _).2 hvalue, hP⟩

/-- The documents of a term. -/
theorem KeepsFirst.mem_documents (h : KeepsFirst sorted records) {id : DocId} :
    id ∈ (cutBy TermRecord.id (ofTerm sorted term)).map Prod.fst ↔
      ∃ record ∈ records, record.term = term ∧ record.id = id := by
  rw [← h.exists_iff fun t i _ => t = term ∧ i = id, List.mem_map]
  have hpieces := cutBy_pieces TermRecord.id (ofTerm sorted term)
  constructor
  · rintro ⟨piece, hpiece, rfl⟩
    obtain ⟨record, hrecord, hid⟩ := hpieces.exists_record hpiece
    obtain ⟨hin, hterm⟩ := mem_ofTerm.1 hrecord
    exact ⟨record, hin, hterm, hid⟩
  · rintro ⟨record, hrecord, hterm, hid⟩
    obtain ⟨piece, hpiece, hkey, -⟩ := hpieces.exists_mem (mem_ofTerm.2 ⟨hrecord, hterm⟩)
    exact ⟨piece, hpiece, hkey.trans hid⟩

variable {piece : DocId × List TermRecord}

/-- The occurrences of a document are its positions with their first values. -/
theorem KeepsFirst.mem_occurrences (h : KeepsFirst sorted records)
    (hpiece : piece ∈ cutBy TermRecord.id (ofTerm sorted term)) {position : Position}
    {value : Int32} : ⟨position, value⟩ ∈ occurrences piece.2 ↔
      firstValue? records term piece.1 position = some value := by
  have horder := ofTerm_inOrder h.strict term
  have hmem (record : TermRecord) : record ∈ piece.2 ↔
      (record ∈ sorted ∧ record.term = term) ∧ record.id = piece.1 := by
    rw [(cutBy_pieces TermRecord.id _).mem_iff (fun _ => UInt32.lt_irrefl _)
      (documents_ascending horder) hpiece, mem_ofTerm]
  rw [occurrences, List.mem_map]
  constructor
  · rintro ⟨record, hrecord, heq⟩
    obtain ⟨⟨hsorted, rfl⟩, hid⟩ := (hmem record).1 hrecord
    obtain ⟨rfl, rfl⟩ := Occurrence.mk.inj heq
    rw [← hid]
    exact (h.mem_iff record).1 hsorted
  · intro hvalue
    refine ⟨⟨term, piece.1, position, value⟩, (hmem _).2 ⟨⟨?_, rfl⟩, rfl⟩, rfl⟩
    exact (h.mem_iff _).2 hvalue

theorem KeepsFirst.positions_ascending (h : KeepsFirst sorted records)
    (hpiece : piece ∈ cutBy TermRecord.id (ofTerm sorted term)) :
    ((occurrences piece.2).map Occurrence.position).Pairwise (· < ·) := by
  rw [occurrences, List.map_map]
  exact InvertedIndex.positions_ascending (ofTerm_inOrder h.strict term) hpiece

/-- A document is written bare if the records give it position `0` alone. -/
theorem KeepsFirst.isBare_iff (h : KeepsFirst sorted records)
    (hpiece : piece ∈ cutBy TermRecord.id (ofTerm sorted term)) :
    TermData.isBare (occurrences piece.2) = true ↔ OnlyAtZero records term piece.1 := by
  have hne : occurrences piece.2 ≠ [] := fun hnil =>
    (cutBy_pieces TermRecord.id _).nonempty piece hpiece (List.map_eq_nil_iff.1 hnil)
  rw [InvertedIndex.isBare_iff hne (h.positions_ascending hpiece)]
  constructor
  · rintro hzero record hrecord hterm hid
    obtain ⟨value, hvalue⟩ := exists_firstValue?.2 ⟨record, hrecord, hterm, hid, rfl⟩
    exact hzero _ ((h.mem_occurrences hpiece).2 hvalue)
  · rintro honly ⟨position, value⟩ hoccurrence
    obtain ⟨record, hrecord, hterm, hid, rfl⟩ :=
      exists_firstValue?.1 ⟨value, (h.mem_occurrences hpiece).1 hoccurrence⟩
    exact honly record hrecord hterm hid

/-- **A walk on a document tells what the records say of it.** -/
theorem KeepsFirst.tells (h : KeepsFirst sorted records)
    (hvalid : ∀ record ∈ sorted, Storable record)
    (hpiece : piece ∈ cutBy TermRecord.id (ofTerm sorted term)) {walk : SnapshotWalk}
    (hwalk : walk.landing = some (documentLanding piece)) : walk.Tells records term := by
  have hcurrent : walk.current = piece.1 := by
    rw [SnapshotWalk.current, hwalk]
    rfl
  have hvalue : walk.value = (TermData.contentOf (occurrences piece.2)).bareValue := by
    rw [SnapshotWalk.value, hwalk]
    rfl
  have hoccurrences : walk.occurrences
      = if TermData.isBare (occurrences piece.2) then [] else occurrences piece.2 := by
    have hsublist := (cutBy_pieces TermRecord.id _).sublist hpiece
    rw [SnapshotWalk.occurrences, hwalk]
    refine TermData.kept_eq (List.forall_mem_map.2 fun record hrecord => ?_)
    exact (hvalid record (mem_ofTerm.1 (hsublist.subset hrecord)).1).position
  have hwindow : IdStream.window walk = walk.occurrences.map Occurrence.position := rfl
  have hmem {position : Position} {value : Int32} : ⟨position, value⟩ ∈ occurrences piece.2 ↔
      firstValue? records term piece.1 position = some value := h.mem_occurrences hpiece
  -- Written bare, the document has its value in the entry; otherwise all is in the list.
  by_cases hbare : TermData.isBare (occurrences piece.2) = true
  · have honly := (h.isBare_iff hpiece).1 hbare
    rw [← hcurrent] at honly
    rw [if_pos hbare] at hoccurrences
    have hempty : IdStream.window walk = [] := by
      rw [hwindow, hoccurrences]
      rfl
    refine ⟨fun _ => ⟨?_, hoccurrences, hempty⟩, absurd honly, ?_, absurd honly, absurd honly⟩
    · obtain ⟨value, hlist⟩ := exists_of_isBare hbare
      rw [hvalue, hcurrent, ← hmem, hlist]
      exact List.mem_singleton.2 rfl
    · rw [hempty]
      exact .nil
  · have honly : ¬ OnlyAtZero records term walk.current := by
      rw [hcurrent, ← h.isBare_iff hpiece]
      exact hbare
    rw [if_neg hbare] at hoccurrences
    refine ⟨?_, ?_, ?_, ?_, ?_⟩
    · intro hzero
      exact absurd hzero honly
    · intro _
      rw [hvalue]
      exact bareValue_contentOf (Bool.eq_false_iff.2 hbare)
    · rw [hwindow, hoccurrences]
      exact h.positions_ascending hpiece
    · intro _ position
      rw [← exists_firstValue?, hwindow, hoccurrences, hcurrent, List.mem_map]
      constructor
      · rintro ⟨occurrence, hoccurrence, rfl⟩
        exact ⟨occurrence.value, hmem.1 hoccurrence⟩
      · rintro ⟨value, hfirst⟩
        exact ⟨⟨position, value⟩, hmem.2 hfirst, rfl⟩
    · intro _ position value
      rw [hoccurrences, hcurrent]
      exact hmem

end Documents

/-! ## Terms -/

section Terms

variable {sorted records : List TermRecord} {term : String}

/-- **A walk over what is written for a term recounts what the records say of it.** -/
theorem KeepsFirst.recounts (h : KeepsFirst sorted records)
    (hvalid : ∀ record ∈ sorted, Storable record)
    (hgroups : WrittenGroup.AllSound (writtenGroups (ofTerm sorted term))) :
    (SnapshotWalk.ofData (WrittenGroup.bytesAll (writtenGroups (ofTerm sorted term)))).Recounts
      records term := by
  have hlandings := landingsAll_eq (ofTerm_inOrder h.strict term)
    fun record hrecord => (hvalid record (mem_ofTerm.1 hrecord).1).id
  have hids : IdStream.ids (SnapshotWalk.ofData
      (WrittenGroup.bytesAll (writtenGroups (ofTerm sorted term))))
        = (cutBy TermRecord.id (ofTerm sorted term)).map Prod.fst := by
    have hlist : Obeys (WrittenGroup.hitsAll hgroups).ids .fresh
        (WrittenGroup.hitsAll hgroups).stream := (WrittenGroup.hitsAll hgroups).sim.obeys rfl
    rw [(SnapshotWalk.shows.obeys (WrittenGroup.shows_ofData hgroups) hlist).ids_eq]
    show ((WrittenGroup.landingsAll _).map SnapshotLanding.hit).map Hit.id = _
    rw [hlandings, List.map_map, List.map_map]
    rfl
  refine ⟨?_, ?_, ?_⟩
  · rw [hids]
    exact List.pairwise_map.2 (documents_ascending (ofTerm_inOrder h.strict term))
  · intro id
    rw [hids]
    exact h.mem_documents
  · intro state hstate hcurrent
    -- The walk stands on a document, so it has landed on what was written for it.
    cases hlanding : state.landing with
    | none =>
      refine absurd ?_ hcurrent
      rw [SnapshotWalk.current, hlanding]
    | some landing =>
      have hmem := List.mem_filterMap.2 ⟨state, hstate, hlanding⟩
      rw [WrittenGroup.drain_ofData hgroups, hlandings] at hmem
      obtain ⟨piece, hpiece, rfl⟩ := List.mem_map.1 hmem
      exact h.tells hvalid hpiece hlanding

/-- The longest list of some states is the longest of the postings that they stand on. -/
theorem foldr_max_landings (states : List SnapshotWalk) :
    (states.map fun state => state.occurrences.length).foldr max 0
      = ((states.filterMap SnapshotWalk.landing).map fun landing =>
          landing.occurrences.length).foldr max 0 := by
  induction states with
  | nil => rfl
  | cons state rest ih =>
    rw [List.map_cons, List.foldr_cons, ih, SnapshotWalk.occurrences]
    cases hlanding : state.landing with
    | none => rw [List.filterMap_cons_none hlanding, List.length_nil, Nat.zero_max]
    | some landing => rw [List.filterMap_cons_some hlanding, List.map_cons, List.foldr_cons]

/-- The length of the list of a document. -/
theorem documentLanding_length (piece : DocId × List TermRecord) :
    (documentLanding piece).occurrences.length = listLength piece.2 := by
  show (TermData.kept (occurrences piece.2)).length = _
  unfold TermData.kept listLength
  split
  · rfl
  · rw [List.length_map]
    exact List.length_map ..

/-- The longest list is that which is counted when a term is written. -/
theorem longestList_eq (h : InOrder records) (hvalid : ∀ record ∈ records, record.id.Valid)
    (hgroups : WrittenGroup.AllSound (writtenGroups records)) {image : TermImage}
    (hencode : encodeTerm term records = .ok image) :
    (SnapshotWalk.ofData (WrittenGroup.bytesAll (writtenGroups records))).longestList
      = image.longest := by
  rw [SnapshotWalk.longestList, foldr_max_landings, WrittenGroup.drain_ofData hgroups,
    landingsAll_eq h hvalid, List.map_map, (encodeTerm_counts hencode).2.2, List.foldl_eq_foldr]
  simp only [Function.comp_def, documentLanding_length]

/-- The longest list has no more occurrences than there are positions. -/
theorem longest_le (h : InOrder records) {image : TermImage}
    (hencode : encodeTerm term records = .ok image) : image.longest ≤ 65536 := by
  rw [(encodeTerm_counts hencode).2.2, List.foldl_eq_foldr]
  refine List.max_le_of_forall_le _ _ ?_
  intro length hlength
  obtain ⟨piece, hpiece, rfl⟩ := List.mem_map.1 hlength
  have hle := document_length_le h hpiece
  unfold listLength
  split
  · exact Nat.zero_le _
  · exact hle

end Terms

/-! ## Snapshots -/

section Images

variable {sorted records : List TermRecord} {images : List TermImage}

/-- **A snapshot with the images of sorted records recounts what the records say.** -/
theorem KeepsFirst.snapshot_recounts (h : KeepsFirst sorted records)
    (hvalid : ∀ record ∈ sorted, Storable record) (himages : ImagesOf sorted images) :
    Snapshot.Recounts ⟨[], [], (images.map TermImage.slot).toArray⟩ records := by
  have hids : ∀ record ∈ sorted, record.id.Valid := fun record hrecord => (hvalid record hrecord).id
  have hascending := images_ascending himages h.strict
  have hordered : Snapshot.Ordered ⟨[], [], (images.map TermImage.slot).toArray⟩ :=
    List.pairwise_map.2 hascending
  have hterms : Snapshot.terms ⟨[], [], (images.map TermImage.slot).toArray⟩
      = images.map TermImage.term := by
    show (images.map TermImage.slot).map Slot.term = _
    rw [List.map_map]
    rfl
  -- What is found for a term is the slot of its image.
  have hslot {term : String} {slot : Slot} (hfound : Snapshot.slot?
      ⟨[], [], (images.map TermImage.slot).toArray⟩ term = some slot) :
      ∃ image ∈ images, image.slot = slot ∧ image.term = term := by
    obtain ⟨hmem, rfl⟩ := (Snapshot.slot?_eq_some hordered).1 hfound
    obtain ⟨image, himage, rfl⟩ := List.mem_map.1 hmem
    exact ⟨image, himage, rfl, rfl⟩
  refine ⟨?_, ?_, ?_, ?_, ?_⟩
  · rw [hterms, List.pairwise_map]
    exact hascending.imp textBytes_lt
  · intro term
    rw [hterms, mem_images himages, h.exists_iff fun t _ _ => t = term]
  · intro term
    exact Snapshot.walk?_isSome hordered
  · intro term walk hwalk
    obtain ⟨slot, hfound, rfl⟩ := Option.map_eq_some_iff.1 hwalk
    obtain ⟨image, himage, rfl, rfl⟩ := hslot hfound
    obtain ⟨hgroups, hdata⟩ := image_sound himages h.strict hids himage
    show (SnapshotWalk.ofData image.data).Recounts records image.term
    rw [hdata]
    exact h.recounts hvalid hgroups
  · intro term
    rw [Snapshot.longest?, Snapshot.walk?, Option.map_map, Option.map_map]
    refine Option.map_congr ?_
    intro slot hfound
    obtain ⟨image, himage, rfl, rfl⟩ := hslot hfound
    obtain ⟨hgroups, hdata⟩ := image_sound himages h.strict hids himage
    have hencode := image_encoded himages h.strict himage
    have hlength := longest_le (ofTerm_inOrder h.strict image.term) hencode
    show image.longest.toUInt32.toNat = (SnapshotWalk.ofData image.data).longestList
    rw [hdata, longestList_eq (ofTerm_inOrder h.strict image.term)
      (fun record hrecord => hids record (mem_ofTerm.1 hrecord).1) hgroups hencode]
    exact UInt32.toNat_ofNat_of_lt' (Nat.lt_of_le_of_lt hlength (by decide))

/-! ## Counts -/

/-- As many keys are in both, if position and value do not matter. -/
theorem KeepsFirst.card_keys (h : KeepsFirst sorted records) {κ : Type} [DecidableEq κ]
    (key : String → DocId → κ) :
    (sorted.map fun record => key record.term record.id).toFinset.card
      = (records.map fun record => key record.term record.id).toFinset.card := by
  congr 1
  ext k
  rw [List.mem_toFinset, List.mem_toFinset, List.mem_map, List.mem_map]
  exact h.exists_iff fun term id _ => key term id = k

/-- The records of a term are in order. -/
theorem piece_inOrder (h : RunSorter.StrictlySorted sorted) {piece : String × List TermRecord}
    (hpiece : piece ∈ cutBy TermRecord.term sorted) : InOrder piece.2 := by
  have hnodup := Pieces.keys_nodup (fun _ => String.lt_irrefl _) (terms_ascending h)
  rw [(cutBy_pieces TermRecord.term sorted).eq_filter hnodup hpiece]
  exact ofTerm_inOrder h piece.1

/-- **What is counted while the images are written** are the terms of the records, with their groups
    and their documents. -/
theorem KeepsFirst.stats_recounts (h : KeepsFirst sorted records)
    (hvalid : ∀ record ∈ sorted, Storable record) (himages : ImagesOf sorted images)
    {stats : BuildStats} (hstats : stats.Counts images) : stats.Recounts records := by
  have hpieces := cutBy_pieces TermRecord.term sorted
  have hnodup := Pieces.keys_nodup (fun _ => String.lt_irrefl _) (terms_ascending h.strict)
  refine ⟨?_, ?_, ?_⟩
  · rw [hstats.terms, ← List.Forall₂.length_eq himages, hpieces.length_eq_card hnodup]
    exact h.card_keys fun term _ => term
  · rw [hstats.groups, images_map himages fun _ _ hencode => (encodeTerm_counts hencode).1,
      hpieces.sum_length_eq_card (fun piece _ => cutBy_pieces _ piece.2) hnodup ?_]
    · exact h.card_keys fun term id => (term, id.group)
    · intro piece hpiece
      refine Pieces.keys_nodup (fun _ => UInt16.lt_irrefl _)
        (groups_ascending (piece_inOrder h.strict hpiece) ?_)
      intro record hrecord
      exact (hvalid record ((hpieces.sublist hpiece).subset hrecord)).id
  · rw [hstats.postings, images_map himages fun _ _ hencode => (encodeTerm_counts hencode).2.1,
      hpieces.sum_length_eq_card (fun piece _ => cutBy_pieces _ piece.2) hnodup ?_]
    · exact h.card_keys fun term id => (term, id)
    · intro piece hpiece
      exact Pieces.keys_nodup (fun _ => UInt32.lt_irrefl _)
        (documents_ascending (piece_inOrder h.strict hpiece))

end Images

/-! ## The round trip -/

namespace Draft

/-- What a run of occurrences leaves. -/
theorem filterMap_record? (maxPosition : Position) (calls : List TermRecord) :
    (calls.map Addition.occurrence).filterMap (Addition.record? maxPosition)
      = calls.filter fun call => call.Taken maxPosition := by
  rw [List.filterMap_map, ← List.filterMap_eq_filter]
  refine List.filterMap_congr fun call _ => ?_
  by_cases htaken : call.Taken maxPosition
  · simp [Addition.record?, htaken, Option.guard]
  · simp [Addition.record?, htaken, Option.guard]

/-- A run of occurrences leaves no blobs. -/
theorem globals_finish (settings : BuildSettings) (calls : List TermRecord) :
    (run settings (calls.map .occurrence)).globals.finish = [] := by
  have hnone : (calls.map Addition.occurrence).filterMap Addition.blob? = [] := by
    rw [List.filterMap_map]
    exact List.filterMap_eq_nil_iff.2 fun _ _ => rfl
  have hglobals := (run_took settings (calls.map .occurrence)).globals
  rw [hnone] at hglobals
  exact List.length_eq_zero_iff.1 (Nat.le_zero.1 (RunSorter.finish_length_le hglobals))

/-- **A snapshot gives back what its draft was given.** Of some occurrences in any order, with any
    budgets, each with an invalid id or a zero character in its term is refused. If the draft can be
    finished, then the files can be opened with all checks, and the snapshot recounts the
    occurrences that were taken, which are those not refused at positions that are not too large.
    So do the counts. -/
theorem round_trip {settings : BuildSettings} (hmax : settings.maxPosition ≤ largestPosition)
    (calls : List TermRecord) :
    let recorded := calls.filter fun call => call.Taken settings.maxPosition
    (new settings).faults (calls.map .occurrence)
        = calls.map (fun call => (Addition.occurrence call).refusal?) ∧
      ∀ files stats, (run settings (calls.map .occurrence)).finish = .ok (files, stats) →
        -- Offsets in the index have eight bytes.
        (∀ bytes, files .termData = some bytes → bytes.length < 2 ^ 64) →
        stats.Recounts recorded ∧ ∀ base mapped, ∃ snapshot,
          Snapshot.open? base { mapped, verify := true } files = .ok snapshot ∧
            snapshot.Recounts recorded := by
  intro recorded
  refine ⟨?_, ?_⟩
  · rw [faults_eq, List.map_map]
    rfl
  · intro files stats hfinish hroom
    have hrecords := (run_took settings (calls.map .occurrence)).terms
    rw [filterMap_record?] at hrecords
    have htaken : ∀ record ∈ recorded, record.Taken settings.maxPosition := by
      intro record hrecord
      exact of_decide_eq_true (List.mem_filter.1 hrecord).2
    obtain ⟨images, himages, hstats, hopen⟩ := finish_opens hrecords (globals_finish settings calls)
      (fun record hrecord => (htaken record hrecord).id)
      (fun record hrecord => (htaken record hrecord).term) hfinish hroom
    have hkeeps : KeepsFirst (run settings (calls.map .occurrence)).terms.finish recorded :=
      ⟨RunSorter.finish_strictlySorted hrecords, fun record => mem_finish_iff hrecords⟩
    have hsorted : ∀ record ∈ (run settings (calls.map .occurrence)).terms.finish,
        Storable record := by
      intro record hrecord
      have htaken := htaken record ((RunSorter.finish_spec hrecords).2.1 record hrecord)
      exact ⟨htaken.id, UInt16.le_trans htaken.position hmax⟩
    refine ⟨hkeeps.stats_recounts hsorted himages hstats, ?_⟩
    intro base mapped
    exact ⟨_, hopen base _, hkeeps.snapshot_recounts hsorted himages⟩

/-- An oak twice in a row, then three times in vain: in no document, with a zero character, and too
    far behind. The elm has a bare value. -/
theorem round_trip_oak :
    let settings : BuildSettings := { termBudget := 0, maxPosition := 100 }
    let oak : TermRecord := ⟨"oak", 5, 3, 7⟩
    let elm : TermRecord := ⟨"elm", 6, 0, -1⟩
    let calls := [oak, { oak with value := 8 }, { oak with id := 0 }, { oak with term := "o\x00" },
      { oak with position := 101 }, elm]
    settings.maxPosition ≤ largestPosition ∧
      (new settings).faults (calls.map .occurrence)
        = [none, none, some (.invalidId 0), some (.invalidTerm "o\x00"), none, none] ∧
      ∃ files stats, (run settings (calls.map .occurrence)).finish = .ok (files, stats) ∧
        (∀ bytes, files .termData = some bytes → bytes.length < 2 ^ 64) ∧
        stats.Recounts [oak, { oak with value := 8 }, elm] ∧ ∃ snapshot,
          Snapshot.open? "trees" { verify := true } files = .ok snapshot ∧
            snapshot.Recounts [oak, { oak with value := 8 }, elm] := by
  intro settings oak elm calls
  have hmax : settings.maxPosition ≤ largestPosition := by decide
  obtain ⟨hfaults, hopen⟩ := round_trip hmax calls
  have hrecorded : calls.filter (fun call => call.Taken settings.maxPosition)
      = [oak, { oak with value := 8 }, elm] := by decide
  have hrefused : calls.map (fun call => (Addition.occurrence call).refusal?)
      = [none, none, some (.invalidId 0), some (.invalidTerm "o\x00"), none, none] := by decide
  rw [hrecorded] at hopen
  obtain ⟨files, stats, hfinish, hroom⟩ :=
    finish_few (run_took settings (calls.map .occurrence)).terms (by decide)
  obtain ⟨hstats, hsnapshot⟩ := hopen files stats hfinish hroom
  exact ⟨hmax, hfaults.trans hrefused, files, stats, hfinish, hroom, hstats, hsnapshot "trees" true⟩

end Draft

end InvertedIndex
