import InvertedIndex.Window

/-!
# `InvertedIndex.Window.Condition` — tests on the positions of a match

A filter keeps a match when its window passes every condition. Conditions on positions read the
window as ascending: its first position is the least, its last the greatest, and the positions below
a bound come first.
-/

namespace InvertedIndex

/-- A test on a window. -/
inductive Condition where
  /-- Some position is at or after the bound. -/
  | minPosition (bound : Position)
  /-- Some position is at or before the bound. -/
  | maxPosition (bound : Position)
  /-- The position occurs. -/
  | position (place : Position)
  /-- Some position lies between the bounds, both included. -/
  | positionRange (low high : Position)
  /-- There are at least so many positions. -/
  | minCount (n : Nat)
  /-- There are at most so many positions. -/
  | maxCount (n : Nat)
  /-- There are exactly so many positions. -/
  | count (n : Nat)
  /-- The number of positions lies between the bounds, both included. -/
  | countRange (low high : Nat)
  deriving Repr, DecidableEq

/-- Whether an ascending window passes the condition. -/
def Condition.holds (window : Window) : Condition → Bool
  | .minPosition bound => window.getLast?.any (bound ≤ ·)
  | .maxPosition bound => window.head?.any (· ≤ bound)
  | .position place => window.contains place
  | .positionRange low high => (window.dropWhile (· < low)).head?.any (· ≤ high)
  | .minCount n => n ≤ window.length
  | .maxCount n => window.length ≤ n
  | .count n => window.length = n
  | .countRange low high => low ≤ window.length ∧ window.length ≤ high

end InvertedIndex
