import InvertedIndex.Proofs.Outcome
import InvertedIndex.Proofs.Snapshot.Pieces
import InvertedIndex.Proofs.Snapshot.Walk
import InvertedIndex.Proofs.Window
import Mathlib.Data.List.Perm.Subperm

/-!
# `Proofs.Snapshot.TermImage` — what is written for a term

The records of a term, in order, are cut into groups and these into documents. If they can be
recorded at all, what is written for them can be read back, and a walk over it goes through the
documents of the records, with their positions.

## Contents
- `writtenGroups`: the records of a term as groups of entries;
- `encodeTerm_eq_ok`: what is written are the bytes of these groups;
- `Storable`, `Recordable`, `InOrder`: the records of a term as they come from a sorter;
- `writtenGroups_allSound`: the groups can be read back;
- `landingsAll_eq`, `mem_landingsAll`: the postings of a walk over them, and their hits.
-/

namespace InvertedIndex

/-! ## Records as groups of entries -/

/-- The records of a document as an entry. -/
def writtenEntry (piece : DocId × List TermRecord) : WrittenEntry :=
  ⟨piece.1.member, occurrences piece.2⟩

/-- The records of a group as a group of entries. -/
def writtenGroup (piece : UInt16 × List TermRecord) : WrittenGroup :=
  ⟨piece.1, (cutBy TermRecord.id piece.2).map writtenEntry⟩

/-- The records of a term as groups of entries. -/
def writtenGroups (records : List TermRecord) : List WrittenGroup :=
  (cutBy (fun record => record.id.group) records).map writtenGroup

theorem groupBody_eq (piece : UInt16 × List TermRecord) :
    groupBody piece.2 = WrittenEntry.bytesAll (writtenGroup piece).entries := by
  show _ = List.flatMap WrittenEntry.bytes (List.map writtenEntry (cutBy TermRecord.id piece.2))
  rw [List.flatMap_map]
  rfl

/-- A group that is written at all is not too long. -/
theorem encodeRecords_eq_ok {term : String} {piece : UInt16 × List TermRecord} {bytes : Bytes}
    (h : encodeRecords term piece.1 piece.2 = .ok bytes) :
    bytes = (writtenGroup piece).bytes ∧
      (WrittenEntry.bytesAll (writtenGroup piece).entries).length ≤ TermData.maxGroupBytes := by
  unfold encodeRecords at h
  rw [groupBody_eq] at h
  dsimp only at h
  split at h
  · cases h
  next hsize =>
    cases h
    exact ⟨rfl, Nat.le_of_not_lt hsize⟩

/-- The groups of a term, as they are written. -/
theorem mapM_encodeRecords {term : String} {pieces : List (UInt16 × List TermRecord)}
    {data : List Bytes} (h : (pieces.mapM fun piece => encodeRecords term piece.1 piece.2) = .ok data) :
    data.flatten = WrittenGroup.bytesAll (pieces.map writtenGroup) ∧
      ∀ group ∈ pieces.map writtenGroup,
        (WrittenEntry.bytesAll group.entries).length ≤ TermData.maxGroupBytes := by
  have hwritten := mapM_forall₂ h
  clear h
  induction hwritten with
  | nil => exact ⟨rfl, by simp⟩
  | cons hpiece _ ih =>
    obtain ⟨rfl, hlength⟩ := encodeRecords_eq_ok hpiece
    constructor
    · rw [List.flatten_cons, ih.1]
      rfl
    · simp only [List.map_cons, List.forall_mem_cons]
      exact ⟨hlength, ih.2⟩

/-- **What is written for a term** are the bytes of its groups, none of which is too long. -/
theorem encodeTerm_eq_ok {term : String} {records : List TermRecord} {image : TermImage}
    (h : encodeTerm term records = .ok image) :
    image.term = term ∧ image.data = WrittenGroup.bytesAll (writtenGroups records) ∧
      image.data.length < 2 ^ 32 ∧ ∀ group ∈ writtenGroups records,
        (WrittenEntry.bytesAll group.entries).length ≤ TermData.maxGroupBytes := by
  obtain ⟨data, hdata, h⟩ := bind_eq_ok.1 h
  obtain ⟨hbytes, hsizes⟩ := mapM_encodeRecords hdata
  simp only [bind, Except.bind, pure, Except.pure] at h
  split at h
  · cases h
  next hsize =>
    cases h
    exact ⟨rfl, hbytes, Nat.lt_of_not_le hsize, hsizes⟩

/-- What is counted of a term: its groups, its documents and its longest list. -/
theorem encodeTerm_counts {term : String} {records : List TermRecord} {image : TermImage}
    (h : encodeTerm term records = .ok image) :
    image.groups = (cutBy (fun record => record.id.group) records).length ∧
      image.postings = (cutBy TermRecord.id records).length ∧
      image.longest = ((cutBy TermRecord.id records).map fun piece => listLength piece.2).foldl
        max 0 := by
  obtain ⟨data, -, h⟩ := bind_eq_ok.1 h
  simp only [bind, Except.bind, pure, Except.pure] at h
  split at h
  · cases h
  · cases h
    exact ⟨rfl, rfl, rfl⟩

/-! ## Few records -/

/-- So many records are never too many for one group. -/
def fewRecords : Nat := 349525

theorem groupBody_length_le (records : List TermRecord) :
    (groupBody records).length ≤ 12 * records.length := by
  have hpieces := cutBy_pieces TermRecord.id records
  refine hpieces.flatMap_length_le ?_
  rintro ⟨id, piece⟩ hpiece
  have hentry := TermData.encodeEntry_length_le id.member (occurrences piece)
  have hcount : 0 < piece.length := List.length_pos_iff.2 (hpieces.nonempty _ hpiece)
  have hlength : (occurrences piece).length = piece.length := List.length_map ..
  rw [hlength] at hentry
  show (TermData.encodeEntry id.member (occurrences piece)).length ≤ 12 * piece.length
  omega

theorem writtenGroups_length_le (records : List TermRecord) :
    (WrittenGroup.bytesAll (writtenGroups records)).length ≤ 17 * records.length := by
  have hpieces := cutBy_pieces (fun record : TermRecord => record.id.group) records
  rw [WrittenGroup.bytesAll, writtenGroups, List.flatMap_map]
  refine hpieces.flatMap_length_le ?_
  intro piece hpiece
  have hbody := groupBody_length_le piece.2
  have hgroup := TermData.encodeGroup_length_le piece.1 (groupBody piece.2)
  have hcount := List.length_pos_iff.2 (hpieces.nonempty piece hpiece)
  rw [groupBody_eq] at hbody hgroup
  show (TermData.encodeGroup piece.1 _).length ≤ _
  exact hgroup.trans (by omega)

/-- **Few records of a term can always be written.** -/
theorem encodeTerm_few (term : String) {records : List TermRecord}
    (hfew : records.length ≤ fewRecords) :
    ∃ image, encodeTerm term records = .ok image ∧ image.data.length ≤ 17 * records.length := by
  have hlimit : records.length ≤ 349525 := hfew
  have hgroups : ∃ data, ((cutBy (fun record => record.id.group) records).mapM fun piece =>
      encodeRecords term piece.1 piece.2) = .ok data := by
    refine mapM_eq_ok ?_
    intro piece hpiece
    have hbody := groupBody_length_le piece.2
    have hcount := ((cutBy_pieces _ records).sublist hpiece).length_le
    have hmax : TermData.maxGroupBytes = 4194303 := rfl
    refine ⟨TermData.encodeGroup piece.1 (groupBody piece.2), ?_⟩
    rw [encodeRecords, if_neg (by omega)]
  obtain ⟨data, hdata⟩ := hgroups
  have hbytes := (mapM_encodeRecords hdata).1
  have hlength := writtenGroups_length_le records
  -- The groups all fit, and so does the term that they make together.
  have hsmall : ¬ UInt32.size ≤ data.flatten.length := by
    rw [hbytes]
    show ¬ 4294967296 ≤ (WrittenGroup.bytesAll (writtenGroups records)).length
    omega
  unfold encodeTerm
  simp only [hdata, bind, Except.bind, if_neg hsmall]
  refine ⟨_, rfl, ?_⟩
  show data.flatten.length ≤ _
  rw [hbytes]
  exact hlength

/-! ## Records in order -/

/-- A record that a snapshot can hold. -/
structure Storable (record : TermRecord) : Prop where
  id : record.id.Valid
  position : record.position ≤ largestPosition

/-- A record that a snapshot can hold, at a position other than `0`. -/
structure Recordable (record : TermRecord) : Prop extends Storable record where
  positive : record.position ≠ 0

/-- Records of one term, in the order of their documents and positions. -/
def InOrder (records : List TermRecord) : Prop :=
  records.Pairwise fun a b => a.id < b.id ∨ a.id = b.id ∧ a.position < b.position

section Order

variable {records : List TermRecord}

theorem InOrder.ids (h : InOrder records) :
    records.Pairwise fun a b => a.id = b.id ∨ a.id < b.id := by
  refine h.imp ?_
  rintro a b (hlt | ⟨heq, -⟩)
  · exact .inr hlt
  · exact .inl heq

theorem InOrder.groups (h : InOrder records) (hvalid : ∀ record ∈ records, record.id.Valid) :
    records.Pairwise fun a b => a.id.group = b.id.group ∨ a.id.group < b.id.group := by
  refine h.imp_of_mem ?_
  rintro a b ha hb (hlt | ⟨heq, -⟩)
  · have halarge := DocId.le_largest_iff.1 (hvalid a ha).2
    have hblarge := DocId.le_largest_iff.1 (hvalid b hb).2
    have hab := UInt32.lt_iff_toNat_lt.1 hlt
    rw [← UInt16.toNat_inj, UInt16.lt_iff_toNat_lt, DocId.group_toNat, DocId.group_toNat]
    omega
  · exact .inl (by rw [heq])

/-- The documents of records in order, each with its records. -/
theorem documents_ascending (h : InOrder records) :
    (cutBy TermRecord.id records).Pairwise fun a b => a.1 < b.1 :=
  cutBy_ascending (fun _ _ _ => UInt32.lt_trans) h.ids

/-- The groups of records in order, each with its records. -/
theorem groups_ascending (h : InOrder records) (hvalid : ∀ record ∈ records, record.id.Valid) :
    (cutBy (fun record : TermRecord => record.id.group) records).Pairwise fun a b => a.1 < b.1 :=
  cutBy_ascending (fun _ _ _ => UInt16.lt_trans) (h.groups hvalid)

/-! ## Documents -/

/-- The positions of a document ascend. -/
theorem positions_ascending (h : InOrder records) {piece : DocId × List TermRecord}
    (hpiece : piece ∈ cutBy TermRecord.id records) :
    (piece.2.map TermRecord.position).Pairwise (· < ·) := by
  have hpieces := cutBy_pieces TermRecord.id records
  refine List.pairwise_map.2 ((h.sublist (hpieces.sublist hpiece)).imp_of_mem ?_)
  intro a b ha hb hab
  have hsame : a.id = b.id :=
    (hpieces.key_eq piece hpiece a ha).trans (hpieces.key_eq piece hpiece b hb).symm
  rcases hab with hlt | ⟨-, hlt⟩
  · rw [hsame] at hlt
    exact absurd hlt (UInt32.lt_irrefl _)
  · exact hlt

/-- The documents of records with valid ids have ids that the split can represent. -/
theorem document_largest (hvalid : ∀ record ∈ records, record.id.Valid)
    {piece : DocId × List TermRecord} (hpiece : piece ∈ cutBy TermRecord.id records) :
    piece.1 ≤ DocId.largest := by
  obtain ⟨record, hrecord, hid⟩ := (cutBy_pieces TermRecord.id records).exists_record hpiece
  exact hid ▸ (hvalid record hrecord).2

/-- A document has no more records than there are positions. -/
theorem document_length_le (h : InOrder records) {piece : DocId × List TermRecord}
    (hpiece : piece ∈ cutBy TermRecord.id records) : piece.2.length ≤ 65536 := by
  have hnodup : ((piece.2.map TermRecord.position).map UInt16.toNat).Nodup := by
    refine List.pairwise_map.2 ((positions_ascending h hpiece).imp ?_)
    intro a b hlt
    exact Nat.ne_of_lt (UInt16.lt_iff_toNat_lt.1 hlt)
  have hsubset : (piece.2.map TermRecord.position).map UInt16.toNat ⊆ List.range 65536 := by
    intro number hnumber
    obtain ⟨p, -, rfl⟩ := List.mem_map.1 hnumber
    exact List.mem_range.2 p.toNat_lt
  have hle := (List.subperm_of_subset hnodup hsubset).length_le
  rwa [List.length_map, List.length_map, List.length_range] at hle

/-- The entry of a document can be read back. -/
theorem writtenEntry_sound (h : InOrder records) {piece : DocId × List TermRecord}
    (hpiece : piece ∈ cutBy TermRecord.id records) : (writtenEntry piece).Sound := by
  have hpieces := cutBy_pieces TermRecord.id records
  have hcount := document_length_le h hpiece
  refine ⟨DocId.member_lt _, ?_, ?_⟩
  · intro hnil
    exact hpieces.nonempty piece hpiece (List.map_eq_nil_iff.1 hnil)
  · have hsize := TermData.encodeOccurrences_length_le (occurrences piece.2)
    have hlength : (occurrences piece.2).length = piece.2.length := List.length_map ..
    show (List.flatMap TermData.encodeOccurrence (occurrences piece.2)).length ≤ 2 ^ 32
    omega

/-- The posting of a document: a bare value, or the list of its occurrences. -/
def documentLanding (piece : DocId × List TermRecord) : SnapshotLanding where
  id := piece.1
  value := (TermData.contentOf (occurrences piece.2)).bareValue
  occurrences := TermData.kept (occurrences piece.2)

/-- A walk lands on a document with its id and its records. -/
theorem writtenEntry_landing {piece : DocId × List TermRecord} (hlargest : piece.1 ≤ DocId.largest) :
    WrittenEntry.landing piece.1.group (writtenEntry piece) = documentLanding piece := by
  unfold WrittenEntry.landing documentLanding
  rw [SnapshotLanding.mk.injEq]
  exact ⟨DocId.compose_group_member hlargest, rfl, rfl⟩

/-- Away from position `0`, a document has a list of its positions. -/
theorem documentLanding_hit (hvalid : ∀ record ∈ records, Recordable record)
    {piece : DocId × List TermRecord} (hpiece : piece ∈ cutBy TermRecord.id records) :
    (documentLanding piece).hit = ⟨piece.1, piece.2.map TermRecord.position⟩ := by
  have hrecordable : ∀ r ∈ piece.2, Recordable r := fun r hr =>
    hvalid r (((cutBy_pieces TermRecord.id records).sublist hpiece).subset hr)
  have hbare : TermData.isBare (occurrences piece.2) = false :=
    TermData.isBare_eq_false (List.forall_mem_map.2 fun r hr => (hrecordable r hr).positive)
  have hkept : TermData.kept (occurrences piece.2) = _ :=
    TermData.kept_eq (List.forall_mem_map.2 fun r hr => (hrecordable r hr).position)
  have hwindow : (occurrences piece.2).map Occurrence.position
      = piece.2.map TermRecord.position := List.map_map
  show Hit.mk piece.1 ((TermData.kept (occurrences piece.2)).map Occurrence.position) = _
  rw [hkept, hbare, if_neg Bool.false_ne_true, hwindow]

/-! ## Groups -/

/-- The records of a group are in order, and have valid ids. -/
theorem group_inOrder (h : InOrder records) {piece : UInt16 × List TermRecord}
    (hpiece : piece ∈ cutBy (fun record : TermRecord => record.id.group) records) :
    InOrder piece.2 := h.sublist ((cutBy_pieces _ records).sublist hpiece)

theorem group_valid (hvalid : ∀ record ∈ records, record.id.Valid)
    {piece : UInt16 × List TermRecord}
    (hpiece : piece ∈ cutBy (fun record : TermRecord => record.id.group) records) :
    ∀ record ∈ piece.2, record.id.Valid := fun record hrecord =>
  hvalid record (((cutBy_pieces _ records).sublist hpiece).subset hrecord)

/-- The documents of a group are in the group. -/
theorem document_group {piece : UInt16 × List TermRecord}
    (hpiece : piece ∈ cutBy (fun record : TermRecord => record.id.group) records)
    {document : DocId × List TermRecord} (hdocument : document ∈ cutBy TermRecord.id piece.2) :
    document.1.group = piece.1 := by
  obtain ⟨record, hrecord, hid⟩ := (cutBy_pieces TermRecord.id piece.2).exists_record hdocument
  rw [← hid]
  exact (cutBy_pieces _ records).key_eq piece hpiece record hrecord

/-- A group that is not too long can be read back. -/
theorem writtenGroup_sound (h : InOrder records)
    (hvalid : ∀ record ∈ records, record.id.Valid) {piece : UInt16 × List TermRecord}
    (hpiece : piece ∈ cutBy (fun record : TermRecord => record.id.group) records)
    (hsize : (WrittenEntry.bytesAll (writtenGroup piece).entries).length
      ≤ TermData.maxGroupBytes) : (writtenGroup piece).Sound := by
  have horder := group_inOrder h hpiece
  have hvalid' := group_valid hvalid hpiece
  have hpieces := cutBy_pieces TermRecord.id piece.2
  refine ⟨?_, ?_, ?_, hsize⟩
  · intro hnil
    obtain ⟨record, rest, hrecords⟩ :=
      List.exists_cons_of_ne_nil ((cutBy_pieces _ records).nonempty piece hpiece)
    have hmem : record ∈ piece.2 := by
      rw [hrecords]
      exact List.mem_cons_self
    obtain ⟨document, hdocument, -⟩ := hpieces.exists_mem hmem
    rw [List.map_eq_nil_iff.1 hnil] at hdocument
    cases hdocument
  · refine List.pairwise_map.2 ((documents_ascending horder).imp_of_mem ?_)
    intro a b ha hb hlt
    -- Within a group ids are in the order of their members.
    obtain ⟨r, hr, hra⟩ := hpieces.exists_record ha
    obtain ⟨r', hr', hrb⟩ := hpieces.exists_record hb
    have halarge := (hvalid' r hr).2
    have hblarge := (hvalid' r' hr').2
    rw [hra] at halarge
    rw [hrb] at hblarge
    rw [← DocId.compose_group_member halarge, ← DocId.compose_group_member hblarge,
      document_group hpiece ha, document_group hpiece hb,
      DocId.compose_lt_iff (DocId.member_lt _) (DocId.member_lt _)] at hlt
    rcases hlt with hgroup | ⟨-, hmember⟩
    · exact absurd hgroup (UInt16.lt_irrefl _)
    · exact hmember
  · intro entry hentry
    obtain ⟨document, hdocument, rfl⟩ := List.mem_map.1 hentry
    exact writtenEntry_sound horder hdocument

/-- **Cut into groups and these into documents, records are cut into documents.** -/
theorem documents_eq (h : InOrder records) (hvalid : ∀ record ∈ records, record.id.Valid) :
    ((cutBy (fun record : TermRecord => record.id.group) records).flatMap fun piece =>
      cutBy TermRecord.id piece.2) = cutBy TermRecord.id records := by
  have hgroups := cutBy_pieces (fun record : TermRecord => record.id.group) records
  have hpieces : Pieces TermRecord.id
      ((cutBy (fun record : TermRecord => record.id.group) records).flatMap fun piece =>
        cutBy TermRecord.id piece.2) records := by
    refine ⟨?_, ?_, ?_⟩
    · rw [List.flatMap_assoc]
      simp only [(cutBy_pieces TermRecord.id _).join]
      exact hgroups.join
    · intro document hdocument
      obtain ⟨piece, -, hin⟩ := List.mem_flatMap.1 hdocument
      exact (cutBy_pieces TermRecord.id piece.2).nonempty document hin
    · intro document hdocument
      obtain ⟨piece, -, hin⟩ := List.mem_flatMap.1 hdocument
      exact (cutBy_pieces TermRecord.id piece.2).key_eq document hin
  refine hpieces.unique (cutBy_pieces TermRecord.id records) (fun _ => UInt32.lt_irrefl _)
    (fun _ _ _ => UInt32.lt_trans) ?_ (documents_ascending h)
  refine List.pairwise_flatMap.2 ⟨fun piece hpiece => ?_, ?_⟩
  · exact documents_ascending (group_inOrder h hpiece)
  · refine (groups_ascending h hvalid).imp_of_mem ?_
    intro piece piece' hpiece hpiece' hlt document hdocument document' hdocument'
    -- A document of a lower group lies below all documents of a higher one.
    rw [← DocId.compose_group_member (document_largest (group_valid hvalid hpiece) hdocument)]
    refine DocId.compose_lt_of_group_lt ?_
    rw [document_group hpiece hdocument, document_group hpiece' hdocument']
    exact hlt

/-- **A walk over the groups lands on the documents of the records.** -/
theorem landingsAll_eq (h : InOrder records) (hvalid : ∀ record ∈ records, record.id.Valid) :
    WrittenGroup.landingsAll (writtenGroups records)
      = (cutBy TermRecord.id records).map documentLanding := by
  rw [WrittenGroup.landingsAll, writtenGroups, List.flatMap_map, ← documents_eq h hvalid,
    List.map_flatMap]
  refine List.flatMap_congr fun piece hpiece => ?_
  rw [WrittenGroup.landings, writtenGroup, List.map_map]
  refine List.map_congr_left fun document hdocument => ?_
  rw [Function.comp_apply, ← document_group hpiece hdocument]
  exact writtenEntry_landing (document_largest (group_valid hvalid hpiece) hdocument)

/-- Away from position `0`, the hits of a walk are the documents with all their positions. -/
theorem mem_landingsAll (h : InOrder records) (hvalid : ∀ record ∈ records, Recordable record)
    {hit : Hit} :
    hit ∈ (WrittenGroup.landingsAll (writtenGroups records)).map SnapshotLanding.hit
      ↔ (∃ record ∈ records, record.id = hit.id) ∧ hit.window = Window.ofPositions
          ((records.filter fun record => record.id = hit.id).map TermRecord.position) := by
  have hpieces := cutBy_pieces TermRecord.id records
  -- Documents ascend, so each has one piece with all its records.
  have hnodup := Pieces.keys_nodup (fun _ => UInt32.lt_irrefl _) (documents_ascending h)
  have hwindow {document : DocId × List TermRecord}
      (hdocument : document ∈ cutBy TermRecord.id records) : Window.ofPositions
        ((records.filter fun record => record.id = document.1).map TermRecord.position)
          = document.2.map TermRecord.position := by
    rw [← hpieces.eq_filter hnodup hdocument]
    exact Window.ofPositions_eq (positions_ascending h hdocument) fun _ => Iff.rfl
  rw [landingsAll_eq h fun record hrecord => (hvalid record hrecord).id, List.map_map]
  constructor
  · intro hmem
    obtain ⟨document, hdocument, rfl⟩ := List.mem_map.1 hmem
    rw [Function.comp_apply, documentLanding_hit hvalid hdocument]
    exact ⟨hpieces.exists_record hdocument, (hwindow hdocument).symm⟩
  · rintro ⟨hexists, hpositions⟩
    have hdocument : (hit.id, records.filter fun record => record.id = hit.id)
        ∈ cutBy TermRecord.id records := (hpieces.mem_pieces_iff hnodup).2 ⟨hexists, rfl⟩
    refine List.mem_map.2 ⟨_, hdocument, ?_⟩
    rw [Function.comp_apply, documentLanding_hit hvalid hdocument, ← hwindow hdocument]
    exact congrArg (Hit.mk hit.id) hpositions.symm

/-- **The groups of a term can be read back** if none of them is too long. -/
theorem writtenGroups_allSound (h : InOrder records)
    (hvalid : ∀ record ∈ records, record.id.Valid)
    (hsize : ∀ group ∈ writtenGroups records,
      (WrittenEntry.bytesAll group.entries).length ≤ TermData.maxGroupBytes) :
    WrittenGroup.AllSound (writtenGroups records) where
  ascending := List.pairwise_map.2 (groups_ascending h hvalid)
  sound := by
    intro group hgroup
    obtain ⟨piece, hpiece, rfl⟩ := List.mem_map.1 hgroup
    exact writtenGroup_sound h hvalid hpiece (hsize _ hgroup)
  positive := by
    intro landing hlanding
    rw [landingsAll_eq h hvalid] at hlanding
    obtain ⟨document, hdocument, rfl⟩ := List.mem_map.1 hlanding
    obtain ⟨record, hrecord, hid⟩ := (cutBy_pieces TermRecord.id records).exists_record hdocument
    show document.1 ≠ 0
    rw [← hid]
    exact (hvalid record hrecord).1

end Order
end InvertedIndex
