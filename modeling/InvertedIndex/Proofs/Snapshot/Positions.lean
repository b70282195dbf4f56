import InvertedIndex.Proofs.Snapshot.Globals
import InvertedIndex.Proofs.Snapshot.RoundTrip

/-!
# `Proofs.Snapshot.Positions` — which positions a snapshot shows

A list of occurrences has 14 bits for a position. A draft leaves out the positions above the limit of
its settings, which are not kept from a limit that 14 bits do not hold. Then what is shown of a
position is what its low bits say, and that may be another position, or one that is shown already.
All other documents show just the positions that they were given, in order.

## Contents
- `positionsOf`, `shownPositions`: the positions recorded, and what is shown of them;
- `shownPositions_eq`, `fits_of_shownPositions`: when these are the same;
- `KeepsFirst.window_eq`: where a walk over written data stands, whatever moves are made;
- `Snapshot.ShowsGiven`: only positions that were given are shown, in order;
- `Draft.showsGiven_iff`: the documents of which that holds.
-/

namespace InvertedIndex

/-! ## Positions recorded and shown -/

/-- The positions that records give for a term in a document. -/
def positionsOf (records : List TermRecord) (term : String) (id : DocId) : Window :=
  Window.ofPositions ((records.filter fun record => record.term = term ∧ record.id = id).map
    TermRecord.position)

theorem mem_positionsOf {records : List TermRecord} {term : String} {id : DocId} {p : Position} :
    p ∈ positionsOf records term id ↔
      ∃ record ∈ records, record.term = term ∧ record.id = id ∧ record.position = p := by
  simp only [positionsOf, Window.mem_ofPositions, List.mem_map, List.mem_filter, decide_eq_true_eq,
    and_assoc]

/-- What a snapshot shows of ascending positions: nothing of position `0` if there is no other, and
    else the low 14 bits of each. -/
def shownPositions (window : Window) : Window :=
  if window = [0] then [] else window.map (· &&& largestPosition)

/-- Positions that 14 bits hold are shown as they are, unless there is none but `0`. -/
theorem shownPositions_eq {window : Window} (h : ∀ p ∈ window, p ≤ largestPosition) :
    shownPositions window = if window = [0] then [] else window := by
  have hsame : window.map (· &&& largestPosition) = window.map id :=
    List.map_congr_left fun p hp => lowBits_eq (h p hp)
  rw [shownPositions, hsame, List.map_id]

/-- **Positions shown in order, and only ones that were given, fit 14 bits**: one that does not is
    shown as a smaller one, which is either not given or shown twice. -/
theorem fits_of_shownPositions {window : Window} (hasc : (shownPositions window).Pairwise (· < ·))
    (hgiven : ∀ p ∈ window, p &&& largestPosition ∈ shownPositions window →
      p &&& largestPosition ∈ window) : ∀ p ∈ window, p ≤ largestPosition := by
  intro p hp
  by_cases hzero : window = [0]
  · obtain rfl := List.mem_singleton.1 (hzero ▸ hp)
    exact UInt16.zero_le
  · rw [shownPositions, if_neg hzero] at hasc hgiven
    have hkept := hgiven p hp (List.mem_map_of_mem hp)
    have hnodup : (window.map (· &&& largestPosition)).Nodup :=
      hasc.imp fun hlt => UInt16.ne_of_lt hlt
    have hsame : p &&& largestPosition = p :=
      List.inj_on_of_nodup_map hnodup hkept hp (lowBits_eq (lowBits_le p))
    exact hsame ▸ lowBits_le p

/-! ## Where a walk stands -/

/-- What is shown of the positions of a document. -/
theorem kept_positions {occurrences : List Occurrence} :
    (TermData.kept occurrences).map Occurrence.position
      = shownPositions (occurrences.map Occurrence.position) := by
  have hbare : TermData.isBare occurrences = true ↔ occurrences.map Occurrence.position = [0] := by
    rcases occurrences with _ | ⟨⟨position, value⟩, _ | ⟨second, others⟩⟩
    · exact iff_of_false Bool.false_ne_true nofun
    · simp [TermData.isBare]
    · exact iff_of_false Bool.false_ne_true (by simp)
  unfold TermData.kept shownPositions
  by_cases h : TermData.isBare occurrences = true
  · rw [if_pos h, if_pos (hbare.1 h)]
    rfl
  · rw [if_neg h, if_neg (mt hbare.2 h), List.map_map, List.map_map]
    rfl

section Walks

variable {sorted records : List TermRecord} {term : String}

/-- The positions of a document are those that the records give. -/
theorem KeepsFirst.positions_eq (h : KeepsFirst sorted records) {piece : DocId × List TermRecord}
    (hpiece : piece ∈ cutBy TermRecord.id (ofTerm sorted term)) :
    (occurrences piece.2).map Occurrence.position = positionsOf records term piece.1 := by
  refine Window.eq_ofPositions_iff.2 ⟨h.positions_ascending hpiece, fun p => ?_⟩
  refine Iff.trans ?_ (mem_positionsOf.symm.trans Window.mem_ofPositions)
  rw [← exists_firstValue?, List.mem_map]
  constructor
  · rintro ⟨occurrence, hoccurrence, rfl⟩
    exact ⟨occurrence.value, (h.mem_occurrences hpiece).1 hoccurrence⟩
  · rintro ⟨value, hvalue⟩
    exact ⟨⟨p, value⟩, (h.mem_occurrences hpiece).2 hvalue, rfl⟩

variable (h : KeepsFirst sorted records) (hvalid : ∀ record ∈ sorted, record.id.Valid)
  (hgroups : WrittenGroup.AllSound (writtenGroups (ofTerm sorted term)))

/-- The walk over what is written for a term. -/
def writtenWalk (sorted : List TermRecord) (term : String) : SnapshotWalk :=
  .ofData (WrittenGroup.bytesAll (writtenGroups (ofTerm sorted term)))

include h hvalid hgroups in
/-- **Wherever a walk over written data stands**, it shows what is left of the positions recorded. -/
theorem KeepsFirst.window_eq (ms : List Move) :
    let state := moves IdStream.move ms (writtenWalk sorted term)
    IdStream.window state = shownPositions (positionsOf records term state.current) := by
  intro state
  have hlandings := landingsAll_eq (ofTerm_inOrder h.strict term)
    fun record hrecord => hvalid record (mem_ofTerm.1 hrecord).1
  have hwindow : IdStream.window state = state.occurrences.map Occurrence.position := rfl
  rw [hwindow, SnapshotWalk.occurrences, SnapshotWalk.current]
  cases hlanding : state.landing with
  | none =>
    -- Off all documents there are no positions, since no record has the id `0`.
    have hnone : positionsOf records term 0 = [] := by
      refine List.eq_nil_iff_forall_not_mem.2 fun p hp => ?_
      obtain ⟨record, hrecord, hid⟩ := (h.exists_iff fun t i q => t = term ∧ i = 0 ∧ q = p).2
        (mem_positionsOf.1 hp)
      exact (hvalid record hrecord).1 hid.2.1
    show [] = shownPositions (positionsOf records term 0)
    rw [hnone]
    rfl
  | some landing =>
    have hin : landing ∈ WrittenGroup.landingsAll (writtenGroups (ofTerm sorted term)) := by
      refine (SnapshotWalk.tape.here_moves (WrittenGroup.ahead_ofData hgroups) ms
        hlanding).resolve_left ?_
      intro hstart
      cases hstart
    rw [hlandings] at hin
    obtain ⟨piece, hpiece, rfl⟩ := List.mem_map.1 hin
    show (TermData.kept (occurrences piece.2)).map Occurrence.position = _
    rw [kept_positions, h.positions_eq hpiece]
    rfl

include h hvalid hgroups in
/-- It can be moved to each document of the term. -/
theorem KeepsFirst.exists_moves {id : DocId}
    (hid : ∃ record ∈ records, record.term = term ∧ record.id = id) :
    ∃ ms, (moves IdStream.move ms (writtenWalk sorted term)).current = id := by
  have hlandings := landingsAll_eq (ofTerm_inOrder h.strict term)
    fun record hrecord => hvalid record (mem_ofTerm.1 hrecord).1
  obtain ⟨piece, hpiece, rfl⟩ := List.mem_map.1 (h.mem_documents.2 hid)
  have hin : documentLanding piece ∈ WrittenGroup.landingsAll (writtenGroups (ofTerm sorted term)) := by
    rw [hlandings]
    exact List.mem_map_of_mem hpiece
  obtain ⟨ms, hms⟩ := SnapshotWalk.tape.exists_moves (WrittenGroup.ahead_ofData hgroups) hin
  have hlanding : (moves IdStream.move ms (writtenWalk sorted term)).landing
      = some (documentLanding piece) := hms
  refine ⟨ms, ?_⟩
  rw [SnapshotWalk.current, hlanding]
  rfl

end Walks

/-! ## Snapshots -/

section Images

variable {sorted : List TermRecord} {images : List TermImage}

/-- What is written for each term can be read back; for one without records that is nothing. -/
theorem images_allSound (himages : ImagesOf sorted images)
    (hstrict : RunSorter.StrictlySorted sorted) (hvalid : ∀ record ∈ sorted, record.id.Valid)
    (term : String) : WrittenGroup.AllSound (writtenGroups (ofTerm sorted term)) := by
  by_cases hexists : ∃ record ∈ sorted, record.term = term
  · obtain ⟨image, himage, rfl⟩ := List.mem_map.1 ((mem_images himages).2 hexists)
    exact (image_sound himages hstrict hvalid himage).1
  · have hnone : ofTerm sorted term = [] := by
      refine List.eq_nil_iff_forall_not_mem.2 fun record hrecord => hexists ?_
      exact ⟨record, mem_ofTerm.1 hrecord⟩
    rw [hnone]
    exact ⟨.nil, nofun, nofun⟩

/-- The walks of a snapshot with the images of sorted records. -/
theorem Snapshot.written_walk?_eq_some (himages : ImagesOf sorted images)
    (hstrict : RunSorter.StrictlySorted sorted) (hvalid : ∀ record ∈ sorted, record.id.Valid)
    (globals : List GlobalRecord) {term : String} {walk : SnapshotWalk} :
    (Snapshot.written globals images).walk? term = some walk ↔
      (∃ record ∈ sorted, record.term = term) ∧ walk = writtenWalk sorted term := by
  have hordered : (Snapshot.written globals images).Ordered :=
    List.pairwise_map.2 (images_ascending himages hstrict)
  have hwalk {image : TermImage} (himage : image ∈ images) :
      SnapshotWalk.ofData image.data = writtenWalk sorted image.term :=
    congrArg SnapshotWalk.ofData (image_sound himages hstrict hvalid himage).2
  -- What is found for a term is the slot of its image.
  rw [Snapshot.walk?, Option.map_eq_some_iff]
  constructor
  · rintro ⟨slot, hslot, rfl⟩
    obtain ⟨hmem, rfl⟩ := (Snapshot.slot?_eq_some hordered).1 hslot
    obtain ⟨image, himage, rfl⟩ := List.mem_map.1 hmem
    exact ⟨(mem_images himages).1 (List.mem_map_of_mem himage), hwalk himage⟩
  · rintro ⟨hexists, rfl⟩
    obtain ⟨image, himage, rfl⟩ := List.mem_map.1 ((mem_images himages).2 hexists)
    refine ⟨image.slot, (Snapshot.slot?_eq_some hordered).2 ⟨?_, rfl⟩, hwalk himage⟩
    exact List.mem_map_of_mem himage

end Images

/-- Whatever moves a walk over a term makes, in this document it shows positions that were given for
    the term there, in strictly ascending order. -/
def Snapshot.ShowsGiven (snapshot : Snapshot) (additions : List Addition) (term : String)
    (id : DocId) : Prop :=
  ∀ walk, snapshot.walk? term = some walk → ∀ ms, let state := moves IdStream.move ms walk
    state.current = id →
      (∀ p ∈ IdStream.window state, ∃ value, .occurrence ⟨term, id, p, value⟩ ∈ additions) ∧
        (IdStream.window state).Pairwise (· < ·)

namespace Draft

variable {settings : BuildSettings} {additions : List Addition}

/-- A record is left by an addition of it. -/
theorem mem_recorded {record : TermRecord} :
    record ∈ additions.filterMap (Addition.record? settings.maxPosition) ↔
      .occurrence record ∈ additions ∧ record.Taken settings.maxPosition := by
  simp only [List.mem_filterMap, Addition.record?_eq_some_iff]
  constructor
  · rintro ⟨addition, hin, rfl, htaken⟩
    exact ⟨hin, htaken⟩
  · rintro ⟨hin, htaken⟩
    exact ⟨_, hin, rfl, htaken⟩

/-- **A snapshot shows what is left of the positions recorded**, and can be moved to every document
    that has any. -/
theorem finish_shows_positions {files : SnapshotFiles} {stats : BuildStats}
    (hfinish : (run settings additions).finish = .ok (files, stats))
    (hroom : ∀ bytes, files .termData = some bytes → bytes.length < 2 ^ 64) (base : String)
    (opening : OpenSettings) :
    let recorded := additions.filterMap (Addition.record? settings.maxPosition)
    ∃ snapshot, Snapshot.open? base opening files = .ok snapshot ∧
      (∀ term walk, snapshot.walk? term = some walk → ∀ ms,
        let state := moves IdStream.move ms walk
        IdStream.window state = shownPositions (positionsOf recorded term state.current)) ∧
      ∀ record ∈ recorded, ∃ walk ms, snapshot.walk? record.term = some walk ∧
        (moves IdStream.move ms walk).current = record.id := by
  intro recorded
  have htook := run_took settings additions
  have hkeeps : KeepsFirst (run settings additions).terms.finish recorded :=
    ⟨RunSorter.finish_strictlySorted htook.terms, fun record => mem_finish_iff htook.terms⟩
  have hvalid : ∀ record ∈ (run settings additions).terms.finish, record.id.Valid :=
    fun record hrecord => (htook.record_taken record hrecord).id
  obtain ⟨images, himages, hopen⟩ :=
    htook.finish_opens hfinish (short_of_finish hfinish htook.globals_short hroom)
  have hgroups := images_allSound himages hkeeps.strict hvalid
  refine ⟨_, hopen base opening, ?_, ?_⟩
  · intro term walk hwalk
    obtain ⟨-, rfl⟩ := (Snapshot.written_walk?_eq_some himages hkeeps.strict hvalid _).1 hwalk
    exact hkeeps.window_eq hvalid (hgroups term)
  · intro record hrecord
    obtain ⟨ms, hms⟩ := hkeeps.exists_moves hvalid (hgroups record.term)
      ⟨record, hrecord, rfl, rfl⟩
    refine ⟨_, ms, (Snapshot.written_walk?_eq_some himages hkeeps.strict hvalid _).2 ⟨?_, rfl⟩, hms⟩
    exact (hkeeps.exists_iff fun term _ _ => term = record.term).2 ⟨record, hrecord, rfl⟩

/-- **Which positions a snapshot shows.** Whatever a draft is given, with whatever settings, if it can
    be finished, then its files can be opened, verified or not. Moved to any document of a term, the
    snapshot shows the low 14 bits of the positions recorded there, in their order, and none if there
    is only position `0`. So it shows only positions that were given for that term in that document,
    and in strictly ascending order, exactly where no position recorded exceeds 14 bits; with a limit
    that 14 bits hold, that is everywhere. -/
theorem showsGiven_iff {files : SnapshotFiles} {stats : BuildStats}
    (hfinish : (run settings additions).finish = .ok (files, stats))
    -- Offsets in the index have eight bytes.
    (hroom : ∀ bytes, files .termData = some bytes → bytes.length < 2 ^ 64) (base : String)
    (opening : OpenSettings) :
    let recorded := additions.filterMap (Addition.record? settings.maxPosition)
    ∃ snapshot, Snapshot.open? base opening files = .ok snapshot ∧
      (∀ term walk, snapshot.walk? term = some walk → ∀ ms,
        let state := moves IdStream.move ms walk
        IdStream.window state = shownPositions (positionsOf recorded term state.current)) ∧
      (∀ term id, snapshot.ShowsGiven additions term id ↔
        ∀ p ∈ positionsOf recorded term id, p ≤ largestPosition) ∧
      (settings.maxPosition ≤ largestPosition → ∀ term id,
        snapshot.ShowsGiven additions term id) := by
  intro recorded
  obtain ⟨snapshot, hopen, hwindow, hreach⟩ := finish_shows_positions hfinish hroom base opening
  have hiff (term : String) (id : DocId) : snapshot.ShowsGiven additions term id ↔
      ∀ p ∈ positionsOf recorded term id, p ≤ largestPosition := by
    constructor
    · intro hshows p hp
      obtain ⟨record, hrecord, rfl, rfl, rfl⟩ := mem_positionsOf.1 hp
      obtain ⟨walk, ms, hwalk, hms⟩ := hreach record hrecord
      obtain ⟨hgiven, hasc⟩ := hshows walk hwalk ms hms
      rw [hwindow record.term walk hwalk ms, hms] at hgiven hasc
      refine fits_of_shownPositions hasc (fun q hq hshown => ?_) record.position hp
      -- A position given that is below one recorded is recorded too.
      obtain ⟨value, hin⟩ := hgiven _ hshown
      obtain ⟨-, htaken⟩ := mem_recorded.1 hrecord
      obtain ⟨other, hother, -, -, rfl⟩ := mem_positionsOf.1 hq
      have hlow : other.position &&& largestPosition ≤ settings.maxPosition :=
        UInt16.le_trans (lowBits_le_self _) (mem_recorded.1 hother).2.position
      exact mem_positionsOf.2 ⟨_, mem_recorded.2 ⟨hin, htaken.id, htaken.term, hlow⟩, rfl, rfl, rfl⟩
    · rintro hfits walk hwalk ms state rfl
      rw [hwindow term walk hwalk ms, shownPositions_eq hfits]
      split
      · exact ⟨nofun, .nil⟩
      · refine ⟨fun p hp => ?_, Window.ofPositions_ascending _⟩
        obtain ⟨record, hrecord, rfl, hid, rfl⟩ := mem_positionsOf.1 hp
        rw [← hid]
        exact ⟨record.value, (mem_recorded.1 hrecord).1⟩
  refine ⟨snapshot, hopen, hwindow, hiff, fun hmax term id => (hiff term id).2 fun p hp => ?_⟩
  obtain ⟨record, hrecord, -, -, rfl⟩ := mem_positionsOf.1 hp
  exact UInt16.le_trans (mem_recorded.1 hrecord).2.position hmax

/-- With a limit that 14 bits do not hold, an oak far behind in one document, and two of another. -/
theorem showsGiven_iff_oaks :
    let settings : BuildSettings := { maxPosition := 0xFFFF }
    let additions : List Addition := [.occurrence ⟨"oak", 1, 0x4005, 0⟩,
      .occurrence ⟨"oak", 2, 7, 0⟩, .occurrence ⟨"oak", 2, 9, 1⟩]
    ∃ files stats snapshot, (run settings additions).finish = .ok (files, stats) ∧
      (∀ bytes, files .termData = some bytes → bytes.length < 2 ^ 64) ∧
      Snapshot.open? "oaks" {} files = .ok snapshot ∧
      ¬ snapshot.ShowsGiven additions "oak" 1 ∧ snapshot.ShowsGiven additions "oak" 2 := by
  intro settings additions
  obtain ⟨files, stats, hfinish, hroom⟩ := finish_few (run_took settings additions).terms (by decide)
  obtain ⟨snapshot, hopen, -, hiff, -⟩ := showsGiven_iff hfinish hroom "oaks" {}
  have hrecorded : additions.filterMap (Addition.record? settings.maxPosition)
      = [⟨"oak", 1, 0x4005, 0⟩, ⟨"oak", 2, 7, 0⟩, ⟨"oak", 2, 9, 1⟩] := by decide
  rw [hrecorded] at hiff
  refine ⟨files, stats, snapshot, hfinish, hroom, hopen, ?_, ?_⟩
  · intro hshows
    have hfar := (hiff "oak" 1).1 hshows 0x4005 (mem_positionsOf.2 (by decide))
    exact absurd hfar (by decide)
  · refine (hiff "oak" 2).2 fun p hp => ?_
    have hfits : ∀ record ∈ [(⟨"oak", 1, 0x4005, 0⟩ : TermRecord), ⟨"oak", 2, 7, 0⟩, ⟨"oak", 2, 9, 1⟩],
        record.id = 2 → record.position ≤ largestPosition := by decide
    obtain ⟨record, hrecord, -, hid, rfl⟩ := mem_positionsOf.1 hp
    exact hfits record hrecord hid

/-- **A position may be shown that was never given**: alone at position `0x4005`, an oak is shown at
    position `5`. -/
theorem far_position_moved :
    let settings : BuildSettings := { maxPosition := 0xFFFF }
    let additions : List Addition := [.occurrence ⟨"oak", 1, 0x4005, 0⟩]
    ∃ files stats snapshot walk ms, (run settings additions).finish = .ok (files, stats) ∧
      Snapshot.open? "oaks" {} files = .ok snapshot ∧ snapshot.walk? "oak" = some walk ∧
      (moves IdStream.move ms walk).current = 1 ∧
      IdStream.window (moves IdStream.move ms walk) = [5] ∧
      ∀ value, .occurrence ⟨"oak", 1, 5, value⟩ ∉ additions := by
  intro settings additions
  obtain ⟨files, stats, hfinish, hroom⟩ := finish_few (run_took settings additions).terms (by decide)
  obtain ⟨snapshot, hopen, hwindow, hreach⟩ := finish_shows_positions hfinish hroom "oaks" {}
  have hrecorded : additions.filterMap (Addition.record? settings.maxPosition)
      = [⟨"oak", 1, 0x4005, 0⟩] := by decide
  rw [hrecorded] at hwindow hreach
  obtain ⟨walk, ms, hwalk, hms⟩ := hreach _ List.mem_cons_self
  have hpositions : positionsOf [⟨"oak", 1, 0x4005, 0⟩] "oak" 1 = [0x4005] :=
    Window.ofPositions_eq (List.pairwise_singleton _ _) fun p => by simp
  refine ⟨files, stats, snapshot, walk, ms, hfinish, hopen, hwalk, hms, ?_, by simp [additions]⟩
  refine (hwindow "oak" walk hwalk ms).trans ?_
  rw [hms, hpositions]
  decide

end Draft
end InvertedIndex
