import InvertedIndex.Proofs.Catalog
import InvertedIndex.Proofs.Snapshot.SortedRuns
import InvertedIndex.Proofs.Snapshot.TermImage

/-!
# `Proofs.Snapshot.Draft` — from records to an opened snapshot

A draft sorts the records that it takes, cuts them into terms and writes each. When its files are
opened again, the snapshot has the terms of the records, and under each the documents of its records
with all their positions. Order, values, repeats and budgets make no difference to that.

## Contents
- `TermRecord.compareKeys_eq_lt`: the order of records;
- `Draft.addAll`: records added one by one; `Draft.addAll_eq_ok`;
- `recordContents`: what records say; `recordContents_congr`;
- `Draft.finish_eq_ok`: the files of a draft; `Draft.finish_few`: when there are any;
- `writtenContents`, `images_shows_written`: what is written, read back;
- `Draft.finish_shows`: the snapshot that they are opened as.
-/

namespace InvertedIndex

/-! ## The order of records -/

instance : Std.TransCmp (SortRecord.compareKeys (α := TermRecord)) :=
  inferInstanceAs (Std.TransCmp (compareLex (compareOn TermRecord.term)
    (compareLex (compareOn TermRecord.id) (compareOn TermRecord.position))))

namespace TermRecord

/-- Records are in the order of their terms, then of their documents and positions. -/
theorem compareKeys_eq_lt {a b : TermRecord} :
    SortRecord.compareKeys a b = .lt ↔ a.term < b.term ∨
      a.term = b.term ∧ (a.id < b.id ∨ a.id = b.id ∧ a.position < b.position) := by
  have hid : compare a.id b.id = .lt ↔ a.id < b.id := compareOfLessAndEq_eq_lt
  have hposition : compare a.position b.position = .lt ↔ a.position < b.position :=
    compareOfLessAndEq_eq_lt
  show (compare a.term b.term).then _ = .lt ↔ _
  rw [Ordering.then_eq_lt, Ordering.then_eq_lt, compare_eq_lt_iff, hid, hposition,
    Std.compare_eq_iff_eq, Std.compare_eq_iff_eq]

theorem compareKeys_eq_eq {a b : TermRecord} : SortRecord.compareKeys a b = .eq
    ↔ a.term = b.term ∧ a.id = b.id ∧ a.position = b.position := by
  show (compare a.term b.term).then _ = .eq ↔ _
  rw [Ordering.then_eq_eq, Ordering.then_eq_eq, Std.compare_eq_iff_eq, Std.compare_eq_iff_eq,
    Std.compare_eq_iff_eq]

end TermRecord

/-! ## Taking records -/

namespace Draft

/-- Adds the records in the order given. -/
def addAll (draft : Draft) (records : List TermRecord) : Except Fault Draft :=
  records.foldlM (fun draft record =>
    draft.addTerm record.id record.value record.position record.term) draft

/-- An occurrence is refused for its id, then for its term; one too far behind is left out. -/
theorem addTerm_eq (draft : Draft) (id : DocId) (value : Int32) (position : Position)
    (term : String) : draft.addTerm id value position term
      = if ¬ id.Valid then .error (.invalidId id)
        else if '\x00' ∈ term.toList then .error (.invalidTerm term)
        else if position ≤ draft.settings.maxPosition then
          .ok { draft with terms := draft.terms.push ⟨term, id, position, value⟩ }
        else .ok draft := by
  unfold addTerm DocId.check
  by_cases hid : id.Valid
  · by_cases hterm : '\x00' ∈ term.toList
    · simp only [hid, hterm, List.contains_eq_mem, not_true, if_true, if_false, decide_true]
      rfl
    · by_cases hposition : position ≤ draft.settings.maxPosition
      · simp only [hid, hterm, hposition, List.contains_eq_mem, not_true, if_true, if_false,
          decide_false, Bool.false_eq_true, UInt16.not_lt.2 hposition]
        rfl
      · simp only [hid, hterm, hposition, List.contains_eq_mem, not_true, if_true, if_false,
          decide_false, Bool.false_eq_true, UInt16.not_le.1 hposition]
        rfl
  · simp only [hid, not_false_eq_true, if_true, if_false]
    rfl

theorem addTerm_eq_ok {draft : Draft} {record : TermRecord} (hid : record.id.Valid)
    (hterm : '\x00' ∉ record.term.toList)
    (hposition : record.position ≤ draft.settings.maxPosition) :
    draft.addTerm record.id record.value record.position record.term
      = .ok { draft with terms := draft.terms.push record } := by
  rw [addTerm_eq, if_neg (not_not_intro hid), if_neg hterm, if_pos hposition]

/-- Records that can be recorded are all taken. -/
theorem addAll_eq_ok {draft : Draft} {records : List TermRecord}
    (h : ∀ record ∈ records, record.id.Valid ∧ '\x00' ∉ record.term.toList ∧
      record.position ≤ draft.settings.maxPosition) :
    draft.addAll records
      = .ok { draft with terms := records.foldl RunSorter.push draft.terms } := by
  induction records generalizing draft with
  | nil => rfl
  | cons record rest ih =>
    obtain ⟨⟨hid, hterm, hposition⟩, hrest⟩ := List.forall_mem_cons.1 h
    rw [addAll, List.foldlM_cons, addTerm_eq_ok hid hterm hposition]
    exact ih hrest

end Draft

/-! ## What records say -/

/-- The terms of records, with their documents and all positions there. -/
def recordContents (records : List TermRecord) : Contents where
  terms := {term | ∃ record ∈ records, record.term = term}
  hits term := {hit | (∃ record ∈ records, record.term = term ∧ record.id = hit.id) ∧
    hit.window.Pairwise (· < ·) ∧ ∀ p, p ∈ hit.window ↔
      ∃ record ∈ records, record.term = term ∧ record.id = hit.id ∧ record.position = p}

/-- Only the keys of records matter, not their order, their values or how often they occur. -/
theorem recordContents_congr {records records' : List TermRecord}
    (h : ∀ record ∈ records, ∃ record' ∈ records', SortRecord.compareKeys record record' = .eq)
    (h' : ∀ record ∈ records', ∃ record' ∈ records, SortRecord.compareKeys record record' = .eq) :
    recordContents records = recordContents records' := by
  have hkeys (P : String → DocId → Position → Prop) :
      (∃ record ∈ records, P record.term record.id record.position)
        ↔ ∃ record ∈ records', P record.term record.id record.position := by
    constructor
    · rintro ⟨record, hrecord, hP⟩
      obtain ⟨record', hrecord', heq⟩ := h record hrecord
      obtain ⟨hterm, hid, hposition⟩ := TermRecord.compareKeys_eq_eq.1 heq
      rw [hterm, hid, hposition] at hP
      exact ⟨record', hrecord', hP⟩
    · rintro ⟨record, hrecord, hP⟩
      obtain ⟨record', hrecord', heq⟩ := h' record hrecord
      obtain ⟨hterm, hid, hposition⟩ := TermRecord.compareKeys_eq_eq.1 heq
      rw [hterm, hid, hposition] at hP
      exact ⟨record', hrecord', hP⟩
  unfold recordContents
  congr 1
  · ext term
    exact hkeys fun t _ _ => t = term
  · funext term
    ext hit
    refine and_congr (hkeys fun t i _ => t = term ∧ i = hit.id) (and_congr_right fun _ => ?_)
    exact forall_congr' fun p => iff_congr Iff.rfl (hkeys fun t i q => t = term ∧ i = hit.id ∧ q = p)

/-! ## Records in order -/

section Order

variable {records : List TermRecord}

/-- The terms of sorted records ascend. -/
theorem terms_ascending (h : RunSorter.StrictlySorted records) :
    (cutBy TermRecord.term records).Pairwise fun a b => a.1 < b.1 := by
  refine cutBy_ascending (fun _ _ _ => String.lt_trans) (h.imp ?_)
  intro a b hlt
  rcases TermRecord.compareKeys_eq_lt.1 hlt with hterm | ⟨hterm, -⟩
  · exact .inr hterm
  · exact .inl hterm

/-- The records of a term, in their order. -/
def ofTerm (records : List TermRecord) (term : String) : List TermRecord :=
  records.filter fun record => record.term = term

theorem mem_ofTerm {term : String} {record : TermRecord} :
    record ∈ ofTerm records term ↔ record ∈ records ∧ record.term = term := by
  rw [ofTerm, List.mem_filter, decide_eq_true_eq]

/-- The records of one term are in the order of their documents and positions. -/
theorem ofTerm_inOrder (h : RunSorter.StrictlySorted records) (term : String) :
    InOrder (ofTerm records term) := by
  refine (h.sublist List.filter_sublist).imp_of_mem ?_
  intro a b ha hb hlt
  have hsame : a.term = b.term := (mem_ofTerm.1 ha).2.trans (mem_ofTerm.1 hb).2.symm
  rcases TermRecord.compareKeys_eq_lt.1 hlt with hterm | ⟨-, hrest⟩
  · rw [hsame] at hterm
    exact absurd hterm (String.lt_irrefl _)
  · exact hrest

/-- The records of a term say what all of them say about it. -/
theorem mem_recordContents_hits {term : String} {hit : Hit} :
    hit ∈ (recordContents records).hits term
      ↔ (∃ record ∈ ofTerm records term, record.id = hit.id) ∧ hit.window = Window.ofPositions
          (((ofTerm records term).filter fun record => record.id = hit.id).map
            TermRecord.position) := by
  rw [Window.eq_ofPositions_iff]
  simp only [recordContents, Set.mem_ofPred_eq, List.mem_map, List.mem_filter, decide_eq_true_eq,
    mem_ofTerm, and_assoc]

end Order

/-! ## The files -/

/-- The images are those of the terms of the records. -/
abbrev ImagesOf (records : List TermRecord) (images : List TermImage) : Prop :=
  List.Forall₂ (fun piece image => encodeTerm piece.1 piece.2 = .ok image)
    (cutBy TermRecord.term records) images

/-- The counts of a snapshot with the images, besides those of its globals and of the runs that were
    put aside. -/
structure BuildStats.Counts (stats : BuildStats) (images : List TermImage) : Prop where
  terms : stats.terms = images.length
  groups : stats.groups = (images.map TermImage.groups).sum
  postings : stats.postings = (images.map TermImage.postings).sum

/-- **The files of a finished draft** hold the images of its terms, which are counted. -/
theorem Draft.finish_eq_ok {draft : Draft} {files : SnapshotFiles} {stats : BuildStats}
    (h : draft.finish = .ok (files, stats)) :
    ∃ images, ImagesOf draft.terms.finish images ∧ stats.Counts images ∧
      files .globalIndex = some (globalIndex 0 regionHeader draft.globals.finish) ∧
      files .globalData = some (globalData draft.globals.finish) ∧
      files .termIndex = some (termIndex regionHeader images) ∧
      files .termData = some (termData images) := by
  obtain ⟨images, himages, h⟩ := bind_eq_ok.1 h
  cases h
  refine ⟨images, mapM_forall₂ himages, ⟨rfl, ?_, ?_⟩, rfl, rfl, rfl, rfl⟩
  · exact List.foldr_map.symm
  · exact List.foldr_map.symm

section Images

variable {records : List TermRecord} {images : List TermImage}

/-- Each image is that of a piece. -/
theorem exists_piece (h : ImagesOf records images) : ∀ image ∈ images,
    ∃ piece ∈ cutBy TermRecord.term records, encodeTerm piece.1 piece.2 = .ok image := by
  unfold ImagesOf at h
  generalize cutBy TermRecord.term records = pieces at h ⊢
  induction h with
  | nil => simp
  | cons hpiece _ ih =>
    simp only [List.forall_mem_cons, List.exists_mem_cons_iff]
    exact ⟨.inl hpiece, fun image himage => .inr (ih image himage)⟩

/-- What each image takes over from its piece, all images take over. -/
theorem images_map {β : Type} (h : ImagesOf records images) {f : TermImage → β}
    {g : String × List TermRecord → β}
    (hsame : ∀ piece image, encodeTerm piece.1 piece.2 = .ok image → f image = g piece) :
    images.map f = (cutBy TermRecord.term records).map g := by
  unfold ImagesOf at h
  generalize cutBy TermRecord.term records = pieces at h ⊢
  induction h with
  | nil => rfl
  | cons hpiece _ ih => rw [List.map_cons, List.map_cons, ih, hsame _ _ hpiece]

/-- The images have the terms of the pieces. -/
theorem images_terms (h : ImagesOf records images) :
    images.map TermImage.term = (cutBy TermRecord.term records).map Prod.fst :=
  images_map h fun _ _ hencode => (encodeTerm_eq_ok hencode).1

/-- The images have the terms of the records. -/
theorem mem_images (h : ImagesOf records images) {term : String} :
    term ∈ images.map TermImage.term ↔ ∃ record ∈ records, record.term = term := by
  rw [images_terms h, List.mem_map]
  have hpieces := cutBy_pieces TermRecord.term records
  constructor
  · rintro ⟨piece, hpiece, rfl⟩
    exact hpieces.exists_record hpiece
  · rintro ⟨record, hrecord, rfl⟩
    obtain ⟨piece, hpiece, hkey, -⟩ := hpieces.exists_mem hrecord
    exact ⟨piece, hpiece, hkey⟩

theorem images_ascending (h : ImagesOf records images)
    (hstrict : RunSorter.StrictlySorted records) :
    images.Pairwise fun a b => a.term < b.term := by
  have hterms := List.pairwise_map.2 (terms_ascending hstrict)
  rw [← images_terms h] at hterms
  exact List.pairwise_map.1 hterms

theorem images_findable (h : ImagesOf records images)
    (hterms : ∀ record ∈ records, '\x00' ∉ record.term.toList) :
    ∀ image ∈ images, image.Findable := by
  intro image himage
  obtain ⟨piece, hpiece, hencode⟩ := exists_piece h image himage
  obtain ⟨hterm, -, hlength, -⟩ := encodeTerm_eq_ok hencode
  obtain ⟨record, hrecord, hkey⟩ := (cutBy_pieces TermRecord.term records).exists_record hpiece
  refine ⟨?_, hlength⟩
  rw [hterm, ← hkey]
  exact hterms record hrecord

/-- **The image of a term** is what is written for its records. -/
theorem image_encoded (h : ImagesOf records images) (hstrict : RunSorter.StrictlySorted records)
    {image : TermImage} (himage : image ∈ images) :
    encodeTerm image.term (ofTerm records image.term) = .ok image := by
  obtain ⟨piece, hpiece, hencode⟩ := exists_piece h image himage
  have hnodup := Pieces.keys_nodup (fun _ => String.lt_irrefl _) (terms_ascending hstrict)
  have hfilter := (cutBy_pieces TermRecord.term records).eq_filter hnodup hpiece
  rw [(encodeTerm_eq_ok hencode).1, ofTerm, ← hfilter]
  exact hencode

/-- An image has the bytes of groups that can be read back. -/
theorem image_sound (h : ImagesOf records images) (hstrict : RunSorter.StrictlySorted records)
    (hvalid : ∀ record ∈ records, record.id.Valid) {image : TermImage} (himage : image ∈ images) :
    WrittenGroup.AllSound (writtenGroups (ofTerm records image.term)) ∧
      image.data = WrittenGroup.bytesAll (writtenGroups (ofTerm records image.term)) := by
  obtain ⟨-, hdata, -, hsize⟩ := encodeTerm_eq_ok (image_encoded h hstrict himage)
  exact ⟨writtenGroups_allSound (ofTerm_inOrder hstrict image.term)
    (fun record hrecord => hvalid record (mem_ofTerm.1 hrecord).1) hsize, hdata⟩

/-- What is written for each term passes the check of its postings. -/
theorem images_flawless (h : ImagesOf records images) (hstrict : RunSorter.StrictlySorted records)
    (hvalid : ∀ record ∈ records, record.id.Valid) :
    ∀ image ∈ images, TermData.flaw? image.data = none := by
  intro image himage
  obtain ⟨hgroups, hdata⟩ := image_sound h hstrict hvalid himage
  rw [hdata]
  exact TermData.flaw?_eq_none hgroups

/-- The terms of sorted records, with the hits of what is written for each. -/
def writtenContents (records : List TermRecord) : Contents where
  terms := {term | ∃ record ∈ records, record.term = term}
  hits term := {hit |
    hit ∈ (WrittenGroup.landingsAll (writtenGroups (ofTerm records term))).map SnapshotLanding.hit}

/-- **A snapshot with the images shows what was written.** -/
theorem images_shows_written (h : ImagesOf records images)
    (hstrict : RunSorter.StrictlySorted records) (hvalid : ∀ record ∈ records, record.id.Valid)
    {snapshot : Snapshot} (hslots : snapshot.slots.toList = images.map TermImage.slot)
    (hordered : snapshot.Ordered) :
    (snapshot.catalog hordered).Shows SnapshotWalk.shows (writtenContents records) := by
  have hentries : (snapshot.catalog hordered).entries
      = images.map fun image => (image.term, SnapshotWalk.ofData image.data) := by
    show snapshot.slots.toList.map _ = _
    rw [hslots, List.map_map]
    rfl
  constructor
  · intro term
    -- The catalog lists the terms of the images.
    have hlisted : (∃ entry ∈ (snapshot.catalog hordered).entries, entry.1 = term)
        ↔ term ∈ images.map TermImage.term := by
      rw [hentries]
      simp
    exact hlisted.trans (mem_images h)
  · intro entry hentry
    rw [hentries] at hentry
    obtain ⟨image, himage, rfl⟩ := List.mem_map.1 hentry
    obtain ⟨hgroups, hdata⟩ := image_sound h hstrict hvalid himage
    refine ⟨WrittenGroup.hitsAll hgroups, fun hit => Iff.rfl, ?_⟩
    rw [hdata]
    exact WrittenGroup.shows_ofData hgroups

/-- Away from position `0`, what is written is what the records say. -/
theorem recordContents_eq_written (hstrict : RunSorter.StrictlySorted records)
    (hvalid : ∀ record ∈ records, Recordable record) :
    recordContents records = writtenContents records := by
  have hhits : (recordContents records).hits = (writtenContents records).hits := by
    funext term
    ext hit
    rw [mem_recordContents_hits]
    exact (mem_landingsAll (ofTerm_inOrder hstrict term)
      fun record hrecord => hvalid record (mem_ofTerm.1 hrecord).1).symm
  show Contents.mk (recordContents records).terms (recordContents records).hits = _
  rw [hhits]
  rfl

/-- **A snapshot with the images shows what the records say.** -/
theorem images_shows (h : ImagesOf records images) (hstrict : RunSorter.StrictlySorted records)
    (hvalid : ∀ record ∈ records, Recordable record) {snapshot : Snapshot}
    (hslots : snapshot.slots.toList = images.map TermImage.slot) (hordered : snapshot.Ordered) :
    (snapshot.catalog hordered).Shows SnapshotWalk.shows (recordContents records) := by
  rw [recordContents_eq_written hstrict hvalid]
  exact images_shows_written h hstrict (fun record hrecord => (hvalid record hrecord).id)
    hslots hordered

end Images

/-! ## Few records -/

/-- Few records make a short file. -/
theorem termData_length_le {records : List TermRecord} {images : List TermImage}
    (h : ImagesOf records images) (hfew : records.length ≤ fewRecords) :
    (termData images).length ≤ 21 * records.length := by
  have hpieces := cutBy_pieces TermRecord.term records
  -- A piece of few records has few records, and at least one.
  have hsmall : ∀ piece ∈ cutBy TermRecord.term records,
      0 < piece.2.length ∧ piece.2.length ≤ fewRecords := by
    intro piece hpiece
    constructor
    · exact List.length_pos_iff.2 (hpieces.nonempty piece hpiece)
    · exact (hpieces.sublist hpiece).length_le.trans hfew
  rw [← hpieces.join]
  unfold ImagesOf at h
  clear hpieces
  generalize cutBy TermRecord.term records = pieces at h hsmall ⊢
  induction h with
  | nil => simp [termData]
  | @cons piece image _ _ hpiece _ ih =>
    obtain ⟨⟨hpositive, hfew'⟩, hrest⟩ := List.forall_mem_cons.1 hsmall
    obtain ⟨_, hencode, hdata⟩ := encodeTerm_few piece.1 hfew'
    obtain rfl := Except.ok.inj (hpiece.symm.trans hencode)
    have hbehind := ih hrest
    rw [termData] at hbehind ⊢
    rw [List.flatMap_cons, List.flatMap_cons, List.length_append, List.length_append, region,
      List.length_append, Bytes.ofUInt32_length]
    omega

/-- **Few records can always be finished**, and their files are not too long to be opened. -/
theorem Draft.finish_few {draft : Draft} {records : List TermRecord}
    (hrecords : draft.terms.Holds records) (hfew : records.length ≤ fewRecords) :
    ∃ files stats, draft.finish = .ok (files, stats) ∧
      ∀ bytes, files .termData = some bytes → bytes.length < 2 ^ 64 := by
  have hfew' := (RunSorter.finish_length_le hrecords).trans hfew
  have himages : ∃ images, ((cutBy TermRecord.term draft.terms.finish).mapM fun piece =>
      encodeTerm piece.1 piece.2) = .ok images := by
    refine mapM_eq_ok ?_
    intro piece hpiece
    have hpart := ((cutBy_pieces TermRecord.term draft.terms.finish).sublist hpiece).length_le
    obtain ⟨image, hencode, -⟩ := encodeTerm_few piece.1 (hpart.trans hfew')
    exact ⟨image, hencode⟩
  obtain ⟨images, himages⟩ := himages
  have hlength := termData_length_le (mapM_forall₂ himages) hfew'
  unfold Draft.finish
  simp only [himages, bind, Except.bind, pure, Except.pure]
  refine ⟨_, _, rfl, ?_⟩
  intro bytes hbytes
  obtain rfl : termData images = bytes := Option.some.inj hbytes
  have hlimit : draft.terms.finish.length ≤ 349525 := hfew'
  omega

/-- **What a finished draft is opened as**: a snapshot with the images of its terms. -/
theorem Draft.finish_opens {draft : Draft} {records : List TermRecord}
    (hrecords : draft.terms.Holds records) (hglobals : draft.globals.finish = [])
    (hvalid : ∀ record ∈ records, record.id.Valid)
    (hterms : ∀ record ∈ records, '\x00' ∉ record.term.toList) {files : SnapshotFiles}
    {stats : BuildStats} (hfinish : draft.finish = .ok (files, stats))
    (hroom : ∀ bytes, files .termData = some bytes → bytes.length < 2 ^ 64) :
    ∃ images, ImagesOf draft.terms.finish images ∧ stats.Counts images ∧ ∀ base settings,
      Snapshot.open? base settings files = .ok ⟨[], [], (images.map TermImage.slot).toArray⟩ := by
  obtain ⟨hstrict, hmem, -⟩ := RunSorter.finish_spec hrecords
  obtain ⟨images, himages, hstats, hglobalIndex, hglobalData, htermIndex, htermData⟩ :=
    finish_eq_ok hfinish
  rw [hglobals] at hglobalIndex hglobalData
  have hfindable := images_findable himages fun record hrecord =>
    hterms record (hmem record hrecord)
  have hsound := images_flawless himages hstrict fun record hrecord =>
    hvalid record (hmem record hrecord)
  refine ⟨images, himages, hstats, fun base settings => ?_⟩
  have hread : Snapshot.read settings files = .ok ⟨[], [], (images.map TermImage.slot).toArray⟩ :=
    Snapshot.read_eq_ok hglobalIndex hglobalData htermIndex htermData rfl
      (Snapshot.globalsFault?_nil _ _) (hroom _ htermData) hfindable
      (images_ascending himages hstrict) hsound settings
  rw [Snapshot.open?, hread]

/-- A snapshot with the images of a finished draft shows what the records say. -/
theorem Draft.finish_shows {draft : Draft} {records : List TermRecord}
    (hrecords : draft.terms.Holds records) (hglobals : draft.globals.finish = [])
    (hvalid : ∀ record ∈ records, Recordable record)
    (hterms : ∀ record ∈ records, '\x00' ∉ record.term.toList) {files : SnapshotFiles}
    {stats : BuildStats} (hfinish : draft.finish = .ok (files, stats))
    (hroom : ∀ bytes, files .termData = some bytes → bytes.length < 2 ^ 64) (base : String)
    (settings : OpenSettings) :
    ∃ (snapshot : Snapshot) (hordered : snapshot.Ordered),
      Snapshot.open? base settings files = .ok snapshot ∧
        (snapshot.catalog hordered).Shows SnapshotWalk.shows (recordContents records) := by
  obtain ⟨hstrict, hmem, hkept⟩ := RunSorter.finish_spec hrecords
  obtain ⟨images, himages, -, hopen⟩ := finish_opens hrecords hglobals
    (fun record hrecord => (hvalid record hrecord).id) hterms hfinish hroom
  have hcontents : recordContents records = recordContents draft.terms.finish := by
    refine recordContents_congr ?_ ?_
    · intro record hrecord
      obtain ⟨kept, hin, heq⟩ := hkept record hrecord
      exact ⟨kept, hin, Std.OrientedCmp.eq_symm heq⟩
    · intro record hrecord
      exact ⟨record, hmem record hrecord, Std.ReflCmp.compare_self⟩
  have hordered : Snapshot.Ordered ⟨[], [], (images.map TermImage.slot).toArray⟩ :=
    List.pairwise_map.2 (images_ascending himages hstrict)
  refine ⟨_, hordered, hopen base settings, ?_⟩
  rw [hcontents]
  exact images_shows himages hstrict (fun record hrecord => hvalid record (hmem record hrecord)) rfl
    hordered

end InvertedIndex
