import InvertedIndex.Cursor.Basic
import InvertedIndex.Postings.Holding
import InvertedIndex.Postings.Walk
import Std.Data.TreeMap

/-!
# `InvertedIndex.Postings.Basic` — live postings

The postings map each term to a set of ids with a payload each. They can be changed at any time;
walks and cursors read them as they were when they were made.

## Contents
- `Postings`, `Postings.empty`;
- changes: `insert`, `insertPositions`, `erase`, `clear`;
- look-ups: `find?`, `contains`, `termCount`, `termsWithStem`;
- accounts: `stats?`, `totalBytes`, `parkedBlocks`, `parkedArrays`, `reused`;
- `walk?` and the cursors over a term or over all terms with a stem.
-/

namespace InvertedIndex

/-- Postings in memory. -/
structure Postings where
  /-- The terms, in the order of their code points, with what they hold. -/
  holdings : Std.TreeMap String Holding
  /-- The storage of all of them. -/
  arena : Arena

/-- The accounts of one term. -/
structure TermStats where
  ids : Nat
  groups : Nat
  /-- The bytes of all entries. -/
  bytes : Nat
  /-- The most bytes that a group had after an insertion. -/
  maxBytes : Nat
  deriving Repr, DecidableEq

/-- Whether a term starts with a stem. -/
def hasStem (stem term : String) : Bool := stem.toList.isPrefixOf term.toList

namespace Postings

/-- No postings. -/
def empty : Postings := ⟨∅, Arena.new⟩

/-! ## Changes -/

/-- Gives an id under a term a payload, in place of any that it has. -/
def insert (postings : Postings) (term : String) (id : DocId) (payload : Bytes) :
    Except Fault Postings := do
  id.check
  postings.arena.checkPayload term payload.length
  let holding := (postings.holdings[term]?).getD {}
  let (holding, arena) ← holding.insert postings.arena term id.group ⟨id.member, payload⟩
  return ⟨postings.holdings.insert term holding, arena⟩

/-- Gives an id under a term the payload that records the positions. -/
def insertPositions (postings : Postings) (term : String) (id : DocId) (positions : List Position) :
    Except Fault Postings :=
  postings.insert term id (Window.encode positions)

/-- Removes an id from a term, and tells whether it was there. The term stays, even without ids. -/
def erase (postings : Postings) (term : String) (id : DocId) : Bool × Postings :=
  if id.Valid then
    match postings.holdings[term]?.bind fun holding =>
        holding.erase postings.arena id.group id.member with
    | some (holding, arena) => (true, ⟨postings.holdings.insert term holding, arena⟩)
    | none => (false, postings)
  else (false, postings)

/-- Removes all terms. Their blocks are parked. -/
def clear (postings : Postings) : Postings :=
  let holdings := postings.holdings.toList.map Prod.snd
  ⟨∅, holdings.foldl (fun arena holding => holding.release arena) postings.arena⟩

/-! ## Look-ups -/

/-- The payload of an id under a term. -/
def find? (postings : Postings) (term : String) (id : DocId) : Option Bytes :=
  if id.Valid then
    postings.holdings[term]?.bind fun holding => holding.find? id.group id.member
  else none

/-- Whether the term was inserted, even if it has no ids left. -/
def contains (postings : Postings) (term : String) : Bool := postings.holdings.contains term

/-- How many terms there are, those without ids included. -/
def termCount (postings : Postings) : Nat := postings.holdings.size

/-- The terms with a stem, in order, and what they hold. In order, these terms are neighbours. -/
def holdingsWithStem (postings : Postings) (stem : String) : List (String × Holding) :=
  (postings.holdings.toList.dropWhile fun held => held.1 < stem).takeWhile fun held =>
    hasStem stem held.1

/-- The terms with a stem, in order. -/
def termsWithStem (postings : Postings) (stem : String) : List String :=
  (postings.holdingsWithStem stem).map Prod.fst

/-! ## Accounts -/

/-- The accounts of a term. -/
def stats? (postings : Postings) (term : String) : Option TermStats :=
  postings.holdings[term]?.map fun holding =>
    ⟨holding.ids, holding.groups.length, holding.bytes, holding.maxBytes⟩

/-- The bytes of all blocks and arrays in use, at the full size of their classes. -/
def totalBytes (postings : Postings) : Nat := postings.arena.totalBytes

/-- How many blocks are parked. -/
def parkedBlocks (postings : Postings) : Nat := postings.arena.blocks.parkedCount

/-- How many arrays of groups are parked. -/
def parkedArrays (postings : Postings) : Nat := postings.arena.arrays.parkedCount

/-- How many requests for a block or an array were served by a parked one. -/
def reused (postings : Postings) : Nat :=
  postings.arena.blocks.reused + postings.arena.arrays.reused

/-! ## Cursors -/

/-- A walk over the ids of a term. -/
def walk? (postings : Postings) (term : String) : Option Walk :=
  postings.holdings[term]?.map fun holding => Walk.ofGroups holding.groups

/-- A cursor over the ids of a term. -/
def cursor (postings : Postings) (term : String) : Cursor Walk :=
  match postings.walk? term with
  | some walk => .leaf walk
  | none => .empty

/-- A cursor over the ids of all terms with a stem. -/
def stemCursor (postings : Postings) (stem : String) : Cursor Walk :=
  Cursor.wildcard ((postings.holdingsWithStem stem).map fun held =>
    .leaf (Walk.ofGroups held.2.groups))

end Postings
end InvertedIndex
