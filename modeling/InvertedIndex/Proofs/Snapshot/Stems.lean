import InvertedIndex.Proofs.Query.Answers
import InvertedIndex.Proofs.Snapshot.RoundTrip
import InvertedIndex.Proofs.Snapshot.Truncation

/-!
# `Proofs.Snapshot.Stems` — recorded stems leave no trace

A stem that is recorded ends with a star, and what stands before the star begins a term of the same
document. So whoever asks for the terms with a stem of their own, one without a star, finds a document
under a recorded stem only if it is found under the term as well: the documents are those of the
terms offered, whether with their stems or without.

## Contents
- `KeepsFirst.stemCursor_ids`: the documents found for a stem in a snapshot of some records;
- `Offer.exists_record_iff`: the records that offers leave, under a stem;
- `Draft.stems_transparent`: the documents found for a stem in a snapshot of some offers.
-/

namespace InvertedIndex

/-! ## Documents under a stem -/

section Written

variable {sorted records : List TermRecord}

/-- The documents written for a term. -/
theorem mem_writtenContents_ids (hstrict : RunSorter.StrictlySorted sorted)
    (hvalid : ∀ record ∈ sorted, record.id.Valid) {term : String} {id : DocId} :
    id ∈ (writtenContents sorted).ids term ↔
      ∃ record ∈ sorted, record.term = term ∧ record.id = id := by
  have hlandings := landingsAll_eq (ofTerm_inOrder hstrict term)
    fun record hrecord => hvalid record (mem_ofTerm.1 hrecord).1
  have hpieces := cutBy_pieces TermRecord.id (ofTerm sorted term)
  show ((∃ record ∈ sorted, record.term = term) ∧ ∃ hit : Hit,
    hit ∈ (WrittenGroup.landingsAll _).map SnapshotLanding.hit ∧ hit.id = id) ↔ _
  rw [hlandings, List.map_map]
  constructor
  · rintro ⟨-, hit, hhit, rfl⟩
    obtain ⟨piece, hpiece, rfl⟩ := List.mem_map.1 hhit
    obtain ⟨record, hrecord, hid⟩ := hpieces.exists_record hpiece
    obtain ⟨hin, hterm⟩ := mem_ofTerm.1 hrecord
    exact ⟨record, hin, hterm, hid⟩
  · rintro ⟨record, hrecord, hterm, hid⟩
    obtain ⟨piece, hpiece, hkey, -⟩ := hpieces.exists_mem (mem_ofTerm.2 ⟨hrecord, hterm⟩)
    exact ⟨⟨record, hrecord, hterm⟩, _, List.mem_map_of_mem hpiece, hkey.trans hid⟩

/-- **The documents found for a stem** are those of the records whose terms begin with it. -/
theorem KeepsFirst.stemCursor_ids (h : KeepsFirst sorted records)
    (hvalid : ∀ record ∈ sorted, Storable record) {images : List TermImage}
    (himages : ImagesOf sorted images) {snapshot : Snapshot}
    (hslots : snapshot.slots.toList = images.map TermImage.slot) (stem : String) :
    (IdStream.ids (snapshot.stemCursor stem)).Pairwise (· < ·) ∧
      ∀ id, id ∈ IdStream.ids (snapshot.stemCursor stem)
        ↔ ∃ record ∈ records, stem.toList <+: record.term.toList ∧ record.id = id := by
  have hordered : snapshot.Ordered := by
    show snapshot.slots.toList.Pairwise _
    rw [hslots]
    exact List.pairwise_map.2 (images_ascending himages h.strict)
  have hids : ∀ record ∈ sorted, record.id.Valid := fun record hrecord => (hvalid record hrecord).id
  have hshows := images_shows_written himages h.strict hids hslots hordered
  obtain ⟨hasc, hfound⟩ :=
    ((hshows.answers (Snapshot.catalog_serves hordered)).stemCursor stem).ids
  refine ⟨hasc, fun id => (hfound id).trans ?_⟩
  rw [← h.exists_iff fun term other _ => stem.toList <+: term.toList ∧ other = id]
  constructor
  · rintro ⟨term, -, hstem, hid⟩
    obtain ⟨record, hrecord, rfl, hrid⟩ := (mem_writtenContents_ids h.strict hids).1 hid
    exact ⟨record, hrecord, hstem, hrid⟩
  · rintro ⟨record, hrecord, hstem, hid⟩
    exact ⟨record.term, ⟨record, hrecord, rfl⟩, hstem,
      (mem_writtenContents_ids h.strict hids).2 ⟨record, hrecord, rfl, hid⟩⟩

end Written

/-! ## What offers leave -/

/-- A stem without a star begins a recorded stem only if it begins what stands before the star. -/
theorem isPrefix_of_starred {stem text : List Char} (hstar : '*' ∉ stem)
    (h : stem <+: text ++ ['*']) : stem <+: text := by
  rcases List.prefix_concat_iff.1 h with heq | hbegins
  · rw [heq] at hstar
    exact absurd (List.mem_append_right _ List.mem_cons_self) hstar
  · exact hbegins

namespace Offer

/-- An occurrence that is asked for, not refused and not left out. -/
theorem record?_asked_iff {maxPosition : Position} {offer : Offer} {record : TermRecord} :
    offer.asked.record? maxPosition = some record ↔ offer.asked = .occurrence record ∧
      offer.asked.refusal? = none ∧ record.position ≤ maxPosition := by
  rw [Addition.record?_eq_some_iff]
  constructor
  · rintro ⟨hasked, htaken⟩
    rw [hasked, Addition.occurrence_accepted_iff]
    exact ⟨rfl, ⟨htaken.id, htaken.term⟩, htaken.position⟩
  · rintro ⟨hasked, haccepted, hposition⟩
    rw [hasked, Addition.occurrence_accepted_iff] at haccepted
    exact ⟨hasked, haccepted.1, haccepted.2, hposition⟩

/-- **Under a stem without a star**, offers leave records of the documents of the occurrences asked
    for whose terms begin with it, and of no others. -/
theorem exists_record_iff {maxPosition : Position} {offers : List Offer} {stem : List Char}
    (hstar : '*' ∉ stem) {id : DocId} :
    (∃ record ∈ (offers.flatMap additions).filterMap (Addition.record? maxPosition),
        stem <+: record.term.toList ∧ record.id = id) ↔
      ∃ offer ∈ offers, ∃ record, offer.asked.record? maxPosition = some record ∧
        stem <+: record.term.toList ∧ record.id = id := by
  constructor
  · rintro ⟨record, hrecord, hstem, rfl⟩
    obtain ⟨addition, haddition, hleft⟩ := List.mem_filterMap.1 hrecord
    obtain ⟨offer, hoffer, hcomes⟩ := List.mem_flatMap.1 haddition
    rcases List.mem_cons.1 hcomes with rfl | hbesides
    · exact ⟨offer, hoffer, record, hleft, hstem, rfl⟩
    · -- A recorded stem stands for the occurrence that it came with.
      split at hbesides
      next haccepted =>
        obtain ⟨asked, start, hasked, hstart, rfl⟩ := exists_of_mem_besides hbesides
        obtain ⟨heq, htaken⟩ := Addition.record?_eq_some_iff.1 hleft
        cases heq
        refine ⟨offer, hoffer, asked, record?_asked_iff.2 ⟨hasked, haccepted, htaken.position⟩,
          ?_, rfl⟩
        have hbegins : stem <+: start.toList ++ ['*'] := by
          rwa [String.toList_append] at hstem
        exact (isPrefix_of_starred hstar hbegins).trans hstart
      next => cases hbesides
  · rintro ⟨offer, hoffer, record, hleft, hstem, hid⟩
    have hcomes := List.mem_flatMap.2 ⟨offer, hoffer, offer.asked_mem_additions⟩
    exact ⟨record, List.mem_filterMap.2 ⟨offer.asked, hcomes, hleft⟩, hstem, hid⟩

end Offer

/-! ## Snapshots of offers -/

namespace Draft

/-- **Recorded stems neither add documents nor hide any.** Of some offers in any order, with any
    budgets, each is refused for its id or its term alone. If the draft can be finished, its files
    can be opened, and for a stem without a star the snapshot finds, in order, the documents of the
    occurrences asked for whose terms begin with the stem, except those that were refused or had too
    large a position. -/
theorem stems_transparent {settings : BuildSettings}
    (hmax : settings.maxPosition ≤ largestPosition) (offers : List Offer) :
    (new settings).refusals offers = offers.map (fun offer => offer.asked.refusal?) ∧
      ∀ files stats, (offered settings offers).finish = .ok (files, stats) → files.Short →
        ∀ base opening, ∃ snapshot, Snapshot.open? base opening files = .ok snapshot ∧
          ∀ stem : String, '*' ∉ stem.toList →
            let found := IdStream.ids (snapshot.stemCursor stem)
            found.Pairwise (· < ·) ∧ ∀ id, id ∈ found ↔
              ∃ offer ∈ offers, ∃ record, offer.asked = .occurrence record ∧
                offer.asked.refusal? = none ∧ record.position ≤ settings.maxPosition ∧
                stem.toList <+: record.term.toList ∧ record.id = id := by
  refine ⟨refusals_eq _ offers, ?_⟩
  intro files stats hfinish hshort base opening
  have htook := offered_took settings offers
  obtain ⟨images, himages, hopen⟩ := htook.finish_opens hfinish hshort
  have hkeeps : KeepsFirst (offered settings offers).terms.finish
      ((offers.flatMap Offer.additions).filterMap (Addition.record? settings.maxPosition)) :=
    ⟨RunSorter.finish_strictlySorted htook.terms, fun record => mem_finish_iff htook.terms⟩
  refine ⟨_, hopen base opening, ?_⟩
  intro stem hstar
  obtain ⟨hasc, hids⟩ := hkeeps.stemCursor_ids (htook.storable hmax) himages
    (Snapshot.written_slots _ images) stem
  refine ⟨hasc, fun id => ?_⟩
  rw [hids, Offer.exists_record_iff hstar]
  simp only [Offer.record?_asked_iff, and_assoc]

/-- An oak and an ash with their stems, some oaks without, an oak in no document, and an oat too far
    behind. -/
theorem stems_transparent_oak :
    let settings : BuildSettings := { termBudget := 0, maxPosition := 100 }
    let offers : List Offer := [.stems 1 ⟨"oak", 5, 3, 7⟩, .stems 0 ⟨"ash", 6, 0, 1⟩,
      .plain (.occurrence ⟨"oaks", 7, 2, 0⟩), .stems 1 ⟨"oak", 0, 3, 7⟩,
      .stems 1 ⟨"oat", 8, 101, 0⟩]
    settings.maxPosition ≤ largestPosition ∧
      ∃ files stats snapshot, (offered settings offers).finish = .ok (files, stats) ∧
        files.Short ∧ Snapshot.open? "oaks" {} files = .ok snapshot ∧ '*' ∉ "oa".toList ∧
        ∀ id, id ∈ IdStream.ids (snapshot.stemCursor "oa") ↔ id = 5 ∨ id = 7 := by
  intro settings offers
  have hmax : settings.maxPosition ≤ largestPosition := by decide
  have htook := offered_took settings offers
  obtain ⟨files, stats, hfinish, hroom⟩ := finish_few htook.terms (by decide)
  have hblobs : (offered settings offers).globals.finish = [] :=
    List.length_eq_zero_iff.1 (Nat.le_zero.1 (RunSorter.finish_length_le htook.globals))
  have hshort : files.Short := by
    apply short_of_finish hfinish _ hroom
    rw [hblobs]
    decide
  obtain ⟨snapshot, hopen, hfound⟩ :=
    (stems_transparent hmax offers).2 files stats hfinish hshort "oaks" {}
  obtain ⟨-, hids⟩ := hfound "oa" (by decide)
  refine ⟨hmax, files, stats, snapshot, hfinish, hshort, hopen, by decide, fun id => ?_⟩
  rw [hids]
  constructor
  · rintro ⟨offer, hoffer, record, hasked, haccepted, hposition, hstem, rfl⟩
    simp only [offers, List.mem_cons, List.not_mem_nil, or_false] at hoffer
    rcases hoffer with rfl | rfl | rfl | rfl | rfl
    · cases hasked
      exact .inl rfl
    · cases hasked
      exact absurd hstem (by decide)
    · cases hasked
      exact .inr rfl
    · exact absurd haccepted (by decide)
    · cases hasked
      exact absurd hposition (by decide)
  · rintro (rfl | rfl)
    · exact ⟨.stems 1 ⟨"oak", 5, 3, 7⟩, by decide, _, rfl, by decide, by decide, by decide, rfl⟩
    · exact ⟨.plain (.occurrence ⟨"oaks", 7, 2, 0⟩), by decide, _, rfl, by decide, by decide,
        by decide, rfl⟩

end Draft
end InvertedIndex
