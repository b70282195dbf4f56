/-!
# `InvertedIndex.Snapshot.FileRole` — the four files of a snapshot

A snapshot is four files that share a base name. The two index files say where in the two data files
the blob of a document or the postings of a term lie.
-/

namespace InvertedIndex

/-- A file of a snapshot. -/
inductive FileRole where
  /-- For every id, where its blob lies. -/
  | globalIndex
  /-- The blobs. -/
  | globalData
  /-- The terms in order, and where their postings lie. -/
  | termIndex
  /-- The postings. -/
  | termData
  deriving Repr, DecidableEq

namespace FileRole

/-- What the file's name adds to the base name. -/
def suffix : FileRole → String
  | .globalIndex => "_gbl_idx"
  | .globalData => "_gbl"
  | .termIndex => "_term_idx"
  | .termData => "_term_data"

end FileRole
end InvertedIndex
