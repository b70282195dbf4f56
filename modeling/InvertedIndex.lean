import InvertedIndex.Proofs.Corpus
import InvertedIndex.Proofs.Cursor.Algebra
import InvertedIndex.Proofs.Cursor.Answer
import InvertedIndex.Proofs.Cursor.Hits
import InvertedIndex.Proofs.Cursor.Pace
import InvertedIndex.Proofs.Lookups
import InvertedIndex.Proofs.Postings.Ledger
import InvertedIndex.Proofs.Postings.Offsets
import InvertedIndex.Proofs.Postings.Shortening
import InvertedIndex.Proofs.Postings.Turnover
import InvertedIndex.Proofs.Postings.Walk
import InvertedIndex.Proofs.Query.Alternatives
import InvertedIndex.Proofs.Query.Answers
import InvertedIndex.Proofs.Query.Brackets
import InvertedIndex.Proofs.Query.Slices
import InvertedIndex.Proofs.Query.Comparisons
import InvertedIndex.Proofs.Query.Compile
import InvertedIndex.Proofs.Query.Conjunction
import InvertedIndex.Proofs.Query.Documents
import InvertedIndex.Proofs.Query.Exclusions
import InvertedIndex.Proofs.Query.Expansion
import InvertedIndex.Proofs.Query.Idempotent
import InvertedIndex.Proofs.Query.Lexicon
import InvertedIndex.Proofs.Query.Marks
import InvertedIndex.Proofs.Query.Phrases
import InvertedIndex.Proofs.Query.Quotes
import InvertedIndex.Proofs.Query.Relocation
import InvertedIndex.Proofs.Query.Words
import InvertedIndex.Proofs.Query.Written
import InvertedIndex.Proofs.Snapshot.Additions
import InvertedIndex.Proofs.Snapshot.Blobs
import InvertedIndex.Proofs.Snapshot.ByteOrder
import InvertedIndex.Proofs.Snapshot.Draft
import InvertedIndex.Proofs.Snapshot.Offers
import InvertedIndex.Proofs.Snapshot.Positions
import InvertedIndex.Proofs.Snapshot.Recovery
import InvertedIndex.Proofs.Snapshot.RoundTrip
import InvertedIndex.Proofs.Snapshot.SortedRuns
import InvertedIndex.Proofs.Snapshot.Stems
import InvertedIndex.Proofs.Snapshot.Truncation
import InvertedIndex.Proofs.Snapshot.Verified
import InvertedIndex.Proofs.Snapshot.Walk
import InvertedIndex.Proofs.Walks
import InvertedIndex.Proofs.Window
import InvertedIndex.Proofs.Window.LockStep
import InvertedIndex.Proofs.Window.Places
import InvertedIndex.Search
