import InvertedIndex.DocId
import InvertedIndex.Window

/-!
# `InvertedIndex.Cursor.Protocol` — streams of ascending ids

A stream stands before the first of its ids, on one of them, or past the last. It moves forward
only: `next` goes to the next id, `seek target` to the first id at or after the target, and a target
at or below the current id leaves the stream where it is. A stream past its last id stays there.

## Contents
- `IdStream`: what every stream offers;
- `Move`, `IdStream.move`, `IdStream.trace`: moves as data;
- `IdStream.drain`, `IdStream.ids`, `IdStream.hits`: all that a stream still visits.
-/

namespace InvertedIndex

/-- A forward stream of ids with a window at each of them. -/
class IdStream (S : Type) where
  /-- The id the stream stands on, `0` before the first move and past the last id. -/
  current : S → DocId
  /-- The positions matched at the current id. -/
  window : S → Window
  /-- Moves to the next id. -/
  next : S → S
  /-- Moves to the first id at or after the target. -/
  seek : DocId → S → S

/-- One move of a stream. -/
inductive Move where
  | next
  | seek (target : DocId)
  deriving Repr, DecidableEq

/-- Whether the move leaves a stream that stands on `current` where it is. -/
def Move.rests (current : DocId) : Move → Bool
  | .next => false
  | .seek target => current ≠ 0 ∧ target ≤ current

/-- A larger id leaves fewer ids above it; loops over ascending ids end for this reason. -/
theorem DocId.above_lt {a b : DocId} (h : a < b) :
    UInt32.size - b.toNat < UInt32.size - a.toNat := by
  have hab := UInt32.lt_iff_toNat_lt.1 h
  have hb := b.toNat_lt
  simp only [UInt32.size]
  omega

namespace IdStream

variable {S : Type} [IdStream S]

/-- Makes a move. -/
def move : Move → S → S
  | .next, s => next s
  | .seek target, s => seek target s

/-- The states after each of the moves. -/
def trace : List Move → S → List S
  | [], _ => []
  | m :: moves, s => let s := move m s; s :: trace moves s

/-- The states after repeated `next`, up to and including the first that stands on no further id. -/
def drain (s : S) : List S :=
  if current s < current (next s) then next s :: drain (next s) else [next s]
termination_by UInt32.size - (current s).toNat
decreasing_by exact DocId.above_lt ‹_›

/-- The ids that the stream still visits. -/
def ids (s : S) : List DocId := ((drain s).map current).filter (· ≠ 0)

/-- The ids that the stream still visits, each with its window. -/
def hits (s : S) : List (DocId × Window) :=
  ((drain s).map fun s => (current s, window s)).filter (·.1 ≠ 0)

end IdStream
end InvertedIndex
