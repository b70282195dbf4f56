import InvertedIndex.Cursor.Step
import InvertedIndex.Postings.Basic
import InvertedIndex.Query.Compile
import InvertedIndex.Query.Lexicon
import InvertedIndex.Snapshot.Basic
import InvertedIndex.Snapshot.Draft

/-!
# `InvertedIndex.Search` — queries over postings and snapshots

Live postings and opened snapshots are sources of cursors, so the same query can be answered from
either. This module also opens a finished draft, which is how a snapshot comes about.
-/

namespace InvertedIndex

instance : Source Postings Walk where
  cursor := Postings.cursor
  stemCursor := Postings.stemCursor

instance : Source Snapshot SnapshotWalk where
  cursor := Snapshot.cursor
  stemCursor := Snapshot.stemCursor

/-- The snapshot that a draft becomes when its files are opened again. -/
def Draft.publish (draft : Draft) (base : String) (settings : OpenSettings) :
    Except Fault Snapshot := do
  let (files, _) ← draft.finish
  Snapshot.open? base settings files

end InvertedIndex
