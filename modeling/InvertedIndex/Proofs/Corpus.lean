import InvertedIndex.Proofs.Snapshot.Draft

/-!
# `Proofs.Corpus` — a snapshot answers like live postings

A **corpus** says at which positions each term occurs in which documents. It can be inserted into
live postings, pair by pair, or given to a draft, occurrence by occurrence and in any order. Both
then have the same contents, so the postings and the snapshot that the draft becomes answer every
query alike, move by move.

## Contents
- `Mention`, `Corpus`, `Corpus.contents`; `Corpus.Given`: the occurrences of a corpus as records;
- `Postings.insertAll`: the postings of a corpus; `Corpus.insertAll_shows`;
- `Corpus.addAll_holds`: a draft of a corpus; `Corpus.recordContents_eq`: what it says;
- `Corpus.answers_alike`: one query over both.
-/

namespace InvertedIndex

/-! ## Corpora -/

/-- A term in a document, with the positions it has there. -/
structure Mention where
  term : String
  id : DocId
  positions : List Position
  deriving Repr, DecidableEq

namespace Mention

/-- The pair of a term and a document. -/
def key (mention : Mention) : String × DocId := (mention.term, mention.id)

/-- The document with the positions in order. -/
def hit (mention : Mention) : Hit := ⟨mention.id, Window.ofPositions mention.positions⟩

/-- What can be recorded in a snapshot whose largest position is `limit`. -/
structure Sound (limit : Position) (mention : Mention) : Prop where
  id : mention.id.Valid
  term : '\x00' ∉ mention.term.toList
  nonempty : mention.positions ≠ []
  positions : ∀ p ∈ mention.positions, p ≠ 0 ∧ p ≤ limit

end Mention

/-- Pairs of a term and a document, each once, with positions up to a limit. -/
structure Corpus where
  mentions : List Mention
  /-- The largest position that may occur. -/
  limit : Position
  limit_le : limit ≤ largestPosition
  distinct : (mentions.map Mention.key).Nodup
  sound : ∀ mention ∈ mentions, mention.Sound limit

namespace Corpus

variable {corpus : Corpus}

/-- The terms of a corpus, with their documents and the positions there. -/
def contents (corpus : Corpus) : Contents where
  terms := {term | ∃ mention ∈ corpus.mentions, mention.term = term}
  hits term := {hit | ∃ mention ∈ corpus.mentions, mention.term = term ∧ mention.hit = hit}

/-- The records are the occurrences of the corpus, in any order and with any values. -/
def Given (corpus : Corpus) (records : List TermRecord) : Prop :=
  ∀ term id p,
    (∃ record ∈ records, record.term = term ∧ record.id = id ∧ record.position = p)
      ↔ ∃ mention ∈ corpus.mentions, mention.term = term ∧ mention.id = id ∧
          p ∈ mention.positions

/-- A pair is mentioned once. -/
theorem mention_unique {mention mention' : Mention} (h : mention ∈ corpus.mentions)
    (h' : mention' ∈ corpus.mentions) (hterm : mention.term = mention'.term)
    (hid : mention.id = mention'.id) : mention = mention' :=
  List.inj_on_of_nodup_map corpus.distinct h h' (Prod.ext hterm hid)

end Corpus

/-! ## Live postings of a corpus -/

/-- Inserts the positions of every mention. -/
def Postings.insertAll (postings : Postings) (mentions : List Mention) : Except Fault Postings :=
  mentions.foldlM (fun postings mention =>
    postings.insertPositions mention.term mention.id mention.positions) postings

/-- The ledger has the mentions, with their positions as payloads, and nothing else. -/
structure Ledger.Has (ledger : Ledger) (mentions : List Mention) : Prop where
  terms : ∀ term, term ∈ ledger.terms ↔ ∃ mention ∈ mentions, mention.term = term
  payload : ∀ term id payload, ledger.payload? term id = some payload ↔
    ∃ mention ∈ mentions, mention.term = term ∧ mention.id = id ∧
      Window.encode mention.positions = payload

namespace Ledger.Has

variable {ledger : Ledger} {mentions : List Mention}

theorem empty_has : Ledger.empty.Has [] := ⟨by simp [Ledger.empty], by simp [Ledger.empty]⟩

/-- Another mention is inserted under a key of its own. -/
theorem insert (h : ledger.Has mentions) {mention : Mention} (hid : mention.id.Valid)
    (hkey : mention.key ∉ mentions.map Mention.key) :
    (ledger.insert mention.term mention.id (Window.encode mention.positions)).Has
      (mentions ++ [mention]) := by
  rw [Ledger.insert, if_pos hid]
  constructor
  · intro term
    show term ∈ Insert.insert mention.term ledger.terms ↔ _
    simp only [Finset.mem_insert, h.terms, List.mem_append, List.mem_singleton, or_and_right,
      exists_or, exists_eq_left]
    rw [or_comm, eq_comm]
  · intro term id payload
    show ledger.put mention.term mention.id _ term id = some payload ↔ _
    unfold Ledger.put
    split
    next heq =>
      obtain ⟨rfl, rfl⟩ := heq
      constructor
      · intro hpayload
        exact ⟨mention, by simp, rfl, rfl, Option.some.inj hpayload⟩
      · rintro ⟨other, hother, hterm, hid', hpayload⟩
        -- The key is new, so no older mention can say something else of it.
        rcases List.mem_append.1 hother with hold | hnew
        · exact absurd (List.mem_map.2 ⟨other, hold, Prod.ext hterm hid'⟩) hkey
        · rw [List.mem_singleton.1 hnew] at hpayload
          exact congrArg some hpayload
    next hne =>
      rw [h.payload]
      constructor
      · rintro ⟨other, hother, hrest⟩
        exact ⟨other, List.mem_append_left _ hother, hrest⟩
      · rintro ⟨other, hother, hterm, hid', hpayload⟩
        rcases List.mem_append.1 hother with hold | hnew
        · exact ⟨other, hold, hterm, hid', hpayload⟩
        · rw [List.mem_singleton.1 hnew] at hterm hid'
          exact absurd ⟨hterm.symm, hid'.symm⟩ hne

/-- Positions that a snapshot can hold make modest payloads. -/
theorem allModest (h : ledger.Has mentions)
    (hpositions : ∀ mention ∈ mentions, ∀ p ∈ mention.positions, p ≤ largestPosition) :
    ledger.AllModest := by
  intro term id payload hpayload
  obtain ⟨mention, hmention, -, -, rfl⟩ := (h.payload term id payload).1 hpayload
  exact Modest.encode (hpositions mention hmention)

end Ledger.Has

/-- All mentions with keys of their own are accepted. -/
theorem Postings.Tracks.insertAll {postings : Postings} {ledger : Ledger}
    {done mentions : List Mention} (h : postings.Tracks ledger) (hhas : ledger.Has done)
    (hvalid : ∀ mention ∈ mentions, mention.id.Valid)
    (hpositions : ∀ mention ∈ done ++ mentions, ∀ p ∈ mention.positions, p ≤ largestPosition)
    (hdistinct : ((done ++ mentions).map Mention.key).Nodup) :
    ∃ postings' ledger', postings.insertAll mentions = .ok postings' ∧
      postings'.Tracks ledger' ∧ ledger'.Has (done ++ mentions) := by
  induction mentions generalizing postings ledger done with
  | nil =>
    rw [List.append_nil]
    exact ⟨postings, ledger, rfl, h, hhas⟩
  | cons mention rest ih =>
    obtain ⟨hid, hrest⟩ := List.forall_mem_cons.1 hvalid
    have hsplit : done ++ mention :: rest = (done ++ [mention]) ++ rest := by simp
    -- What is there so far is modest, so there is room for one more payload.
    have hmodest := hhas.allModest fun m hm => hpositions m (List.mem_append_left _ hm)
    have hkey : mention.key ∉ done.map Mention.key := by
      rw [List.map_append, List.map_cons, List.nodup_append] at hdistinct
      intro hmem
      exact hdistinct.2.2 _ hmem _ List.mem_cons_self rfl
    have haccepted : ∃ changed, postings.insert mention.term mention.id
        (Window.encode mention.positions) = .ok changed :=
      h.insert_modest hmodest hid (Modest.encode (hpositions mention (by simp)))
    obtain ⟨changed, hchanged⟩ := haccepted
    rw [hsplit] at hpositions hdistinct ⊢
    obtain ⟨postings', ledger', hall, htracks, hhas'⟩ :=
      ih (h.insert hchanged) (hhas.insert hid hkey) hrest hpositions hdistinct
    refine ⟨postings', ledger', ?_, htracks, hhas'⟩
    rw [Postings.insertAll, List.foldlM_cons, Postings.insertPositions, hchanged]
    exact hall

namespace Corpus

variable {corpus : Corpus}

theorem positions_le {mention : Mention} (h : mention ∈ corpus.mentions) :
    ∀ p ∈ mention.positions, p ≤ largestPosition := fun p hp =>
  UInt16.le_trans ((corpus.sound mention h).positions p hp).2 corpus.limit_le

/-- A ledger with the mentions of a corpus has its contents. -/
theorem contents_eq {ledger : Ledger} (h : ledger.Has corpus.mentions) :
    ledger.contents = corpus.contents := by
  have hterms : ledger.contents.terms = corpus.contents.terms := Set.ext h.terms
  have hhits : ledger.contents.hits = corpus.contents.hits := by
    funext term
    ext hit
    constructor
    · rintro ⟨-, payload, hpayload, hwindow⟩
      obtain ⟨mention, hmention, hterm, hid, rfl⟩ := (h.payload term hit.id payload).1 hpayload
      refine ⟨mention, hmention, hterm, ?_⟩
      obtain ⟨id, window⟩ := hit
      obtain rfl : mention.id = id := hid
      rw [Window.decode_encode] at hwindow
      exact congrArg (Hit.mk mention.id) hwindow.symm
    · rintro ⟨mention, hmention, rfl, rfl⟩
      refine ⟨(corpus.sound mention hmention).id, Window.encode mention.positions, ?_, ?_⟩
      · exact (h.payload _ _ _).2 ⟨mention, hmention, rfl, rfl, rfl⟩
      · exact (Window.decode_encode _).symm
  show Contents.mk ledger.contents.terms ledger.contents.hits = _
  rw [hterms, hhits]

/-- **The postings of a corpus show its contents.** -/
theorem insertAll_shows (corpus : Corpus) :
    ∃ postings, Postings.empty.insertAll corpus.mentions = .ok postings ∧
      postings.catalog.Shows Walk.shows corpus.contents := by
  obtain ⟨postings, ledger, hall, htracks, hhas⟩ := Postings.empty_tracks.insertAll
    Ledger.Has.empty_has (fun mention h => (corpus.sound mention h).id)
    (fun mention h => positions_le h) corpus.distinct
  refine ⟨postings, hall, ?_⟩
  rw [← contents_eq hhas]
  exact htracks.catalog_shows

/-! ## A snapshot of a corpus -/

/-- The occurrences of a corpus say what its contents are. -/
theorem recordContents_eq {records : List TermRecord} (h : corpus.Given records) :
    recordContents records = corpus.contents := by
  -- All positions of a mention are given, and no others under its key.
  have hgiven {mention : Mention} (hmention : mention ∈ corpus.mentions) (p : Position) :
      (∃ record ∈ records, record.term = mention.term ∧ record.id = mention.id ∧
        record.position = p) ↔ p ∈ mention.positions := by
    rw [h]
    constructor
    · rintro ⟨other, hother, hterm, hid, hp⟩
      rwa [← mention_unique hother hmention hterm hid]
    · intro hp
      exact ⟨mention, hmention, rfl, rfl, hp⟩
  have hsome {mention : Mention} (hmention : mention ∈ corpus.mentions) :
      ∃ record ∈ records, record.term = mention.term ∧ record.id = mention.id := by
    obtain ⟨p, hp⟩ := List.exists_mem_of_ne_nil _ (corpus.sound mention hmention).nonempty
    obtain ⟨record, hrecord, hterm, hid, -⟩ := (hgiven hmention p).2 hp
    exact ⟨record, hrecord, hterm, hid⟩
  have hmentioned {record : TermRecord} (hrecord : record ∈ records) :
      ∃ mention ∈ corpus.mentions, mention.term = record.term ∧ mention.id = record.id := by
    obtain ⟨mention, hmention, hterm, hid, -⟩ :=
      (h record.term record.id record.position).1 ⟨record, hrecord, rfl, rfl, rfl⟩
    exact ⟨mention, hmention, hterm, hid⟩
  have hterms : (recordContents records).terms = corpus.contents.terms := by
    ext term
    constructor
    · rintro ⟨record, hrecord, rfl⟩
      obtain ⟨mention, hmention, hterm, -⟩ := hmentioned hrecord
      exact ⟨mention, hmention, hterm⟩
    · rintro ⟨mention, hmention, rfl⟩
      obtain ⟨record, hrecord, hterm, -⟩ := hsome hmention
      exact ⟨record, hrecord, hterm⟩
  have hhits : (recordContents records).hits = corpus.contents.hits := by
    funext term
    ext hit
    constructor
    · rintro ⟨⟨record, hrecord, rfl, hid⟩, hasc, hwindow⟩
      obtain ⟨mention, hmention, hterm, hid'⟩ := hmentioned hrecord
      refine ⟨mention, hmention, hterm, ?_⟩
      obtain ⟨id, window⟩ := hit
      obtain rfl : mention.id = id := hid'.trans hid
      refine congrArg (Hit.mk mention.id) (Window.ofPositions_eq hasc ?_)
      intro p
      rw [← hgiven hmention, hterm]
      exact hwindow p
    · rintro ⟨mention, hmention, rfl, rfl⟩
      refine ⟨hsome hmention, Window.ofPositions_ascending _, ?_⟩
      intro p
      exact Window.mem_ofPositions.trans (hgiven hmention p).symm
  show Contents.mk (recordContents records).terms (recordContents records).hits = _
  rw [hterms, hhits]

/-- Occurrences of a corpus can be recorded. -/
theorem recordable {records : List TermRecord} (h : corpus.Given records) {record : TermRecord}
    (hrecord : record ∈ records) : Recordable record ∧ '\x00' ∉ record.term.toList ∧
      record.position ≤ corpus.limit := by
  obtain ⟨mention, hmention, hterm, hid, hp⟩ :=
    (h record.term record.id record.position).1 ⟨record, hrecord, rfl, rfl, rfl⟩
  have hsound := corpus.sound mention hmention
  obtain ⟨hpositive, hlimit⟩ := hsound.positions record.position hp
  exact ⟨⟨⟨hid ▸ hsound.id, positions_le hmention _ hp⟩, hpositive⟩, hterm ▸ hsound.term, hlimit⟩

/-- **The occurrences of a corpus are accepted**, in any order, and held until the draft is
    finished. -/
theorem addAll_holds {records : List TermRecord} (hrecords : corpus.Given records)
    {settings : BuildSettings} (hlimit : settings.maxPosition = corpus.limit) :
    ∃ draft, (Draft.new settings).addAll records = .ok draft ∧ draft.terms.Holds records ∧
      draft.globals.finish = [] := by
  have haccepted : ∀ record ∈ records, record.id.Valid ∧ '\x00' ∉ record.term.toList ∧
      record.position ≤ (Draft.new settings).settings.maxPosition := by
    intro record hrecord
    obtain ⟨hvalid, hterm, hposition⟩ := recordable hrecords hrecord
    exact ⟨hvalid.id, hterm, hlimit ▸ hposition⟩
  exact ⟨_, Draft.addAll_eq_ok haccepted, (RunSorter.holds_new settings.termBudget).pushAll records,
    RunSorter.finish_new settings.globalBudget⟩

/-! ## Answers -/

/-- **A snapshot answers like live postings.** Insert a corpus into postings, and give its
    occurrences to a draft in any order. All of it is accepted, and whenever the draft can be
    finished, its files can be opened, and every query read by any resolver and compiled to any depth
    has cursors of the same kind that show the same ids and windows along all moves. -/
theorem answers_alike (corpus : Corpus) {records : List TermRecord} (hrecords : corpus.Given records)
    {settings : BuildSettings} (hlimit : settings.maxPosition = corpus.limit) :
    ∃ postings draft, Postings.empty.insertAll corpus.mentions = .ok postings ∧
      (Draft.new settings).addAll records = .ok draft ∧
      ∀ files stats, draft.finish = .ok (files, stats) →
        -- Offsets into the file have eight bytes.
        (∀ bytes, files .termData = some bytes → bytes.length < 2 ^ 64) →
        ∀ base opening, ∃ snapshot, Snapshot.open? base opening files = .ok snapshot ∧
          ∀ input resolve compiling,
            let query := Query.parse input resolve
            let live : Cursor Walk :=
              Compiler.query { source := postings, settings := compiling } query
            let still : Cursor SnapshotWalk :=
              Compiler.query { source := snapshot, settings := compiling } query
            live.kind = still.kind ∧ ∀ moves,
              (live :: IdStream.trace moves live).map
                  (fun c => (IdStream.current c, IdStream.window c))
                = (still :: IdStream.trace moves still).map
                  fun c => (IdStream.current c, IdStream.window c) := by
  obtain ⟨postings, hpostings, hshows⟩ := corpus.insertAll_shows
  obtain ⟨draft, hdraft, hheld, hglobals⟩ := addAll_holds hrecords hlimit
  refine ⟨postings, draft, hpostings, hdraft, ?_⟩
  intro files stats hfinish hroom base opening
  obtain ⟨snapshot, hordered, hopen, hshows'⟩ := Draft.finish_shows hheld hglobals
    (fun record hrecord => (recordable hrecords hrecord).1)
    (fun record hrecord => (recordable hrecords hrecord).2.1) hfinish hroom base opening
  rw [recordContents_eq hrecords] at hshows'
  refine ⟨snapshot, hopen, ?_⟩
  intro input resolve compiling query live still
  -- Both sources have the same terms with related walks, and compiling preserves the relation.
  have hlifts := (hshows.alike hshows').query_lifts postings.catalog_serves
    (Snapshot.catalog_serves hordered) compiling query
  refine ⟨hlifts.kind_eq, ?_⟩
  intro moves
  have hcurrent := (Bisimulation.cursors _).current_eq hlifts
  have hwindow := (Bisimulation.cursors _).window_eq hlifts
  have htrace := (Bisimulation.cursors _).trace_eq hlifts moves
  rw [List.map_cons, List.map_cons, htrace, hcurrent, hwindow]

/-- Two documents with oaks, far apart, and an elm in one of them. -/
def oaks : Corpus where
  mentions := [⟨"oak", 5, [3, 1]⟩, ⟨"elm", 5, [2]⟩, ⟨"oak", 70000, [16383]⟩]
  limit := 16383
  limit_le := by decide
  distinct := by decide
  sound := by
    simp only [List.forall_mem_cons]
    refine ⟨?_, ?_, ?_, by simp⟩
    · exact ⟨by decide, by decide, by decide, by simp⟩
    · exact ⟨by decide, by decide, by decide, by simp⟩
    · exact ⟨by decide, by decide, by decide, by simp⟩

/-- The occurrences of `oaks`, out of order. -/
def oakRecords : List TermRecord :=
  [⟨"oak", 70000, 16383, 7⟩, ⟨"oak", 5, 3, 0⟩, ⟨"elm", 5, 2, -1⟩, ⟨"oak", 5, 1, 0⟩]

theorem oaks_given : oaks.Given oakRecords := by
  intro term id p
  constructor
  · rintro ⟨record, hrecord, rfl, rfl, rfl⟩
    revert record
    decide
  · rintro ⟨mention, hmention, rfl, rfl, hp⟩
    revert p
    revert mention
    simp [oaks, oakRecords]

/-- So the postings and the snapshot of `oaks` answer every query alike. -/
theorem answers_alike_oaks : ∃ postings draft files stats snapshot,
    Postings.empty.insertAll oaks.mentions = .ok postings ∧
      (Draft.new { termBudget := 100 }).addAll oakRecords = .ok draft ∧
      draft.finish = .ok (files, stats) ∧ Snapshot.open? "oaks" {} files = .ok snapshot ∧
      ∀ input resolve compiling,
        let query := Query.parse input resolve
        let live : Cursor Walk :=
          Compiler.query { source := postings, settings := compiling } query
        let still : Cursor SnapshotWalk :=
          Compiler.query { source := snapshot, settings := compiling } query
        live.kind = still.kind ∧ ∀ moves,
          (live :: IdStream.trace moves live).map
              (fun c => (IdStream.current c, IdStream.window c))
            = (still :: IdStream.trace moves still).map
              fun c => (IdStream.current c, IdStream.window c) := by
  have hlimit : BuildSettings.maxPosition { termBudget := 100 } = oaks.limit := rfl
  obtain ⟨postings, draft, hpostings, hdraft, hanswers⟩ := answers_alike oaks oaks_given hlimit
  obtain ⟨_, hheld, hholds, -⟩ := addAll_holds oaks_given hlimit
  obtain rfl := Except.ok.inj (hdraft.symm.trans hheld)
  obtain ⟨files, stats, hfinish, hroom⟩ := Draft.finish_few hholds (by decide)
  obtain ⟨snapshot, hopen, halike⟩ := hanswers files stats hfinish hroom "oaks" {}
  exact ⟨postings, draft, files, stats, snapshot, hpostings, hdraft, hfinish, hopen, halike⟩

end Corpus

end InvertedIndex
