import InvertedIndex.Window

/-!
# `InvertedIndex.Settings` — limits and budgets

## Contents
- `BuildSettings`: how a snapshot is built;
- `OpenSettings`: how a snapshot is opened;
- `CompileSettings`: how a query is compiled.
-/

namespace InvertedIndex

/-- How a snapshot is built. -/
structure BuildSettings where
  /-- The bytes of term records that are held before a sorted run is put aside. -/
  termBudget : Nat := 64 * 1024 * 1024
  /-- The bytes of global records that are held before a sorted run is put aside. -/
  globalBudget : Nat := 64 * 1024 * 1024 / 10
  /-- The directory for runs put aside, where the caller names one. -/
  runDirectory : Option String := none
  /-- The largest position recorded; later ones are left out. -/
  maxPosition : Position := largestPosition
  deriving Repr, DecidableEq

namespace BuildSettings

/-- Sets the budget of the term records, and a tenth of it for the global records. -/
def withBudget (settings : BuildSettings) (bytes : Nat) : BuildSettings :=
  { settings with termBudget := bytes, globalBudget := bytes / 10 }

/-- Lowers the largest position recorded; it never exceeds what a snapshot can hold. -/
def withMaxPosition (settings : BuildSettings) (position : Position) : BuildSettings :=
  { settings with maxPosition := min position largestPosition }

end BuildSettings

/-- How a snapshot is opened. -/
structure OpenSettings where
  /-- Whether the files are mapped rather than read. -/
  mapped : Bool := true
  /-- Whether the postings of every term are checked. -/
  verify : Bool := true
  deriving Repr, DecidableEq

/-- How a query is compiled. -/
structure CompileSettings where
  /-- The depth of the token tree below which tokens compile to nothing. -/
  maxDepth : Nat := 256
  deriving Repr, DecidableEq

/-- The version of the library. -/
def version : String := "0.1.0"

end InvertedIndex
