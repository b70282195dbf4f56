import InvertedIndex.Fault
import InvertedIndex.Settings
import InvertedIndex.Snapshot.Files
import InvertedIndex.Snapshot.SortedRuns
import InvertedIndex.Snapshot.TermData

/-!
# `InvertedIndex.Snapshot.Draft` — building a snapshot

A draft takes occurrences of terms and blobs of documents in any order, sorts them within its
budgets, and writes the four files. Of several occurrences of a term at the same position of a
document, and of several blobs of a document, the first given counts.

## Contents
- `TermRecord`, `GlobalRecord`: what is sorted;
- `Draft`, `Draft.addTerm`, `Draft.addStems`, `Draft.addGlobal`;
- `globalIndex`, `globalData`: the files for the blobs;
- `TermImage`, `encodeTerm`, `termIndex`, `termData`: the files for the terms;
- `Draft.finish`: all files and what they hold.
-/

namespace InvertedIndex

/-! ## Records -/

/-- An occurrence of a term. -/
structure TermRecord where
  term : String
  id : DocId
  position : Position
  value : Int32
  deriving Repr, DecidableEq

/-- Occurrences are in the order of their terms, documents and positions. A record takes up 40 bytes
    and those of its term. -/
instance : SortRecord TermRecord where
  compareKeys a b :=
    (compare a.term b.term).then ((compare a.id b.id).then (compare a.position b.position))
  footprint record := 40 + record.term.utf8ByteSize

/-- The blob of a document. -/
structure GlobalRecord where
  id : DocId
  blob : Bytes
  deriving Repr, DecidableEq

/-- Blobs are in the order of their documents. A record takes up 32 bytes and those of its blob. -/
instance : SortRecord GlobalRecord where
  compareKeys a b := compare a.id b.id
  footprint record := 32 + record.blob.length

/-! ## Taking records -/

/-- A snapshot that is being built. -/
structure Draft where
  settings : BuildSettings
  terms : RunSorter TermRecord
  globals : RunSorter GlobalRecord

/-- What the files of a snapshot hold. -/
structure BuildStats where
  terms : Nat
  /-- Pairs of a term and a group of ids. -/
  groups : Nat
  /-- Pairs of a term and an id. -/
  postings : Nat
  globals : Nat
  /-- Runs that were put aside before the end. -/
  spilledRuns : Nat
  deriving Repr, DecidableEq

namespace Draft

/-- A draft without records. -/
def new (settings : BuildSettings) : Draft :=
  ⟨settings, RunSorter.new settings.termBudget, RunSorter.new settings.globalBudget⟩

/-- Adds an occurrence of a term. One beyond the largest position is left out. -/
def addTerm (draft : Draft) (id : DocId) (value : Int32) (position : Position) (term : String) :
    Except Fault Draft := do
  id.check
  if term.toList.contains '\x00' then throw (.invalidTerm term)
  if draft.settings.maxPosition < position then return draft
  return { draft with terms := draft.terms.push ⟨term, id, position, value⟩ }

/-- The stems of a text that have at least so many bytes, longest first; `stem` holds the characters
    before the text, last one first. -/
def stemsFrom (least : Nat) (stem : List Char) : List Char → List String
  | [] => ownStem stem
  | c :: rest => stemsFrom least (c :: stem) rest ++ ownStem stem
where
  /-- The stem itself, if it is long enough. -/
  ownStem (stem : List Char) : List String :=
    let text := String.ofList stem.reverse
    if least ≤ text.utf8ByteSize then [text] else []

/-- Adds an occurrence of a term, and of `stem*` for each stem of it that has at least so many
    bytes, the whole term included. -/
def addStems (draft : Draft) (id : DocId) (value : Int32) (position : Position) (least : Nat)
    (term : String) : Except Fault Draft := do
  let draft ← draft.addTerm id value position term
  (stemsFrom least [] term.toList).foldlM
    (fun draft stem => draft.addTerm id value position (stem ++ "*")) draft

/-- A blob needs a valid id, and its length must fit into four bytes. -/
def checkBlob (id : DocId) (length : Nat) : Except Fault Unit := do
  id.check
  if UInt32.size ≤ length then throw (.postingTooLarge s!"global {id}" length)

/-- Adds the blob of a document. -/
def addGlobal (draft : Draft) (id : DocId) (blob : Bytes) : Except Fault Draft := do
  checkBlob id blob.length
  return { draft with globals := draft.globals.push ⟨id, blob⟩ }

end Draft

/-! ## Blobs -/

/-- The index of the blobs: an offset of eight bytes for every id from `next` to the largest, `0`
    for an id without a blob. The first region starts at `offset`. -/
def globalIndex (next offset : Nat) : List GlobalRecord → Bytes
  | [] => []
  | record :: rest =>
    List.replicate (8 * (record.id.toNat - next)) 0 ++ Bytes.ofUInt64 offset.toUInt64
      ++ globalIndex (record.id.toNat + 1) (offset + regionHeader + record.blob.length) rest

/-- The regions of the blobs. -/
def globalData (records : List GlobalRecord) : Bytes := records.flatMap fun r => region r.blob

/-! ## Terms -/

/-- A term as it stands in the files. -/
structure TermImage where
  term : String
  data : Bytes
  groups : Nat
  postings : Nat
  /-- The length of the longest list of positions. -/
  longest : Nat

/-- The records cut where the key changes, each piece with its key. -/
def cutBy {κ : Type} [DecidableEq κ] (key : TermRecord → κ) (records : List TermRecord) :
    List (κ × List TermRecord) :=
  (records.splitBy fun a b => key a = key b).filterMap fun piece =>
    piece.head?.map fun first => (key first, piece)

/-- The occurrences of the records of one document. -/
def occurrences (records : List TermRecord) : List Occurrence :=
  records.map fun record => ⟨record.position, record.value⟩

/-- The body of a group: an entry for each of its documents. -/
def groupBody (records : List TermRecord) : Bytes :=
  (cutBy TermRecord.id records).flatMap fun (id, records) =>
    TermData.encodeEntry id.member (occurrences records)

/-- A group as it stands in the data of a term. -/
def encodeRecords (term : String) (number : UInt16) (records : List TermRecord) :
    Except Fault Bytes :=
  let body := groupBody records
  if TermData.maxGroupBytes < body.length then .error (.postingTooLarge term body.length)
  else .ok (TermData.encodeGroup number body)

/-- How many positions a list of the records of one document has; a bare value has no list. -/
def listLength (records : List TermRecord) : Nat :=
  if TermData.isBare (occurrences records) then 0 else records.length

/-- A term with its records in order. Its data must leave room for a length of four bytes. -/
def encodeTerm (term : String) (records : List TermRecord) : Except Fault TermImage := do
  let groups := cutBy (fun record => record.id.group) records
  let documents := cutBy TermRecord.id records
  let data ← groups.mapM fun (number, records) => encodeRecords term number records
  let data := data.flatten
  if UInt32.size ≤ data.length then throw (.postingTooLarge term data.length)
  return { term, data, groups := groups.length, postings := documents.length
           longest := (documents.map fun (_, records) => listLength records).foldl max 0 }

/-- The index of the terms: the term, a zero byte, the offset of its region in eight bytes, and the
    length of its longest list in four. The first region starts at `offset`. -/
def termIndex (offset : Nat) : List TermImage → Bytes
  | [] => []
  | image :: rest =>
    textBytes image.term ++ 0 :: (Bytes.ofUInt64 offset.toUInt64
      ++ Bytes.ofUInt32 image.longest.toUInt32
      ++ termIndex (offset + regionHeader + image.data.length) rest)

/-- The regions of the terms. -/
def termData (images : List TermImage) : Bytes := images.flatMap fun image => region image.data

/-! ## The files -/

/-- Sorts everything added and writes the files. -/
def Draft.finish (draft : Draft) : Except Fault (SnapshotFiles × BuildStats) := do
  let globals := draft.globals.finish
  let images ← (cutBy TermRecord.term draft.terms.finish).mapM fun (term, records) =>
    encodeTerm term records
  let files : SnapshotFiles
    | .globalIndex => some (InvertedIndex.globalIndex 0 regionHeader globals)
    | .globalData => some (InvertedIndex.globalData globals)
    | .termIndex => some (InvertedIndex.termIndex regionHeader images)
    | .termData => some (InvertedIndex.termData images)
  return (files,
    { terms := images.length
      groups := images.foldr (fun image count => image.groups + count) 0
      postings := images.foldr (fun image count => image.postings + count) 0
      globals := globals.length
      spilledRuns := draft.terms.runCount + draft.globals.runCount })

end InvertedIndex
