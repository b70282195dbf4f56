import InvertedIndex.Bytes

/-!
# `InvertedIndex.Window` — the positions of a term in a document

A **window** is the list of positions at which something matches in one document. Stored windows are
ascending and free of repeats; as a payload, each position is a 16-bit little-endian integer.

## Contents
- `Window.ofPositions`: the ascending window of any list of positions;
- `Window.encode`, `Window.decode`: a window as a payload and back;
- `Window.merge`, `Window.unite`: the common window of several matches in one document.
-/

namespace InvertedIndex

/-- A position of a word in a document. -/
abbrev Position := UInt16

/-- The largest position a snapshot can record: positions have 14 bits there. -/
def largestPosition : Position := 0x3FFF

/-- The positions of a match in one document. -/
abbrev Window := List Position

namespace Window

/-! ## Ascending windows -/

/-- A list without the members that equal the one before them. -/
def dropRepeats : Window → Window
  | a :: b :: rest => if a = b then dropRepeats (b :: rest) else a :: dropRepeats (b :: rest)
  | window => window

/-- The ascending window with the given positions. -/
def ofPositions (positions : List Position) : Window :=
  dropRepeats (positions.mergeSort (fun a b => decide (a ≤ b)))

/-! ## Payloads -/

/-- The payload that records the given positions. -/
def encode (positions : List Position) : Bytes :=
  (ofPositions positions).flatMap Bytes.ofUInt16

/-- The 16-bit integers of a payload, two bytes each. -/
def pairs : Bytes → Window
  | a :: b :: rest => Bytes.toUInt16 a b :: pairs rest
  | _ => []

/-- The positions in a payload. One of odd length is no list of positions and has none. -/
def decode (payload : Bytes) : Window :=
  if payload.length % 2 = 0 then pairs payload else []

/-! ## Common windows -/

/-- Merges two windows from the front; a position that heads both is taken once. -/
def merge : Window → Window → Window
  | [], right => right
  | left, [] => left
  | a :: left, b :: right =>
    if a < b then a :: merge left (b :: right)
    else if b < a then b :: merge (a :: left) right
    else a :: merge left right

/-- The common window of matches in one document: a single window as it is, two merged, more of them
    sorted together. -/
def unite : List Window → Window
  | [] => []
  | [window] => window
  | [left, right] => merge left right
  | windows => ofPositions windows.flatten

end Window
end InvertedIndex
