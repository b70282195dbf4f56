import InvertedIndex.Postings.Group

/-!
# `InvertedIndex.Postings.Holding` — all postings of one term

A term holds its groups in an array, ascending by group number, and keeps count of its ids and of
the bytes of their entries. The array comes from the arena like the blocks do: it moves to the next
class when it is full, and to a smaller one as soon as that has room.

## Contents
- `Holding`, `Holding.find?`;
- `Holding.insert`, `Holding.erase`, `Holding.release`.
-/

namespace InvertedIndex

/-- The postings of one term. -/
structure Holding where
  /-- The groups, ascending by number. -/
  groups : List Group := []
  /-- The class of the array that the groups are in. -/
  arrayClass : SizeClass := .zero
  /-- How many ids there are. -/
  ids : Nat := 0
  /-- The bytes of all entries. -/
  bytes : Nat := 0
  /-- The most bytes that a group had after an insertion. -/
  maxBytes : Nat := 0
  deriving Repr, DecidableEq

/-- An array of groups parted at a group number. -/
structure Parted where
  /-- The groups with smaller numbers. -/
  before : List Group
  /-- The group with the number. -/
  found : Option Group
  /-- The groups with larger numbers. -/
  after : List Group

/-- Parts an ascending array of groups at a number. -/
def partAt (number : UInt16) : List Group → Parted
  | [] => ⟨[], none, []⟩
  | group :: rest =>
    if group.number < number then
      let parted := partAt number rest
      { parted with before := group :: parted.before }
    else if group.number = number then ⟨[], some group, rest⟩
    else ⟨[], none, group :: rest⟩

namespace Holding

/-- The payload of an id, given by its group and member number. -/
def find? (holding : Holding) (number member : UInt16) : Option Bytes :=
  (partAt number holding.groups).found.bind fun group => group.find? member

/-- The array after it grew to hold the groups, if its class has no room for them. -/
def grow (arena : Arena) (c : SizeClass) (groups : List Group) :
    List Group × SizeClass × Arena :=
  if groups.length ≤ arena.arrays.capacity c then (groups, c, arena)
  else
    match arena.arrays.classFor? groups.length with
    | none => (groups, c, arena)
    | some target =>
      let (groups, arena) := arena.moveArray c target groups
      (groups, target, arena)

/-- The array after it moved to a smaller class, if the groups fit in one. -/
def shrink (arena : Arena) (c : SizeClass) (groups : List Group) :
    List Group × SizeClass × Arena :=
  match arena.arrays.classFor? groups.length with
  | none => (groups, c, arena)
  | some target =>
    if target < c then
      let (groups, arena) := arena.moveArray c target groups
      (groups, target, arena)
    else (groups, c, arena)

/-- Puts an entry into the group with the number. -/
def insert (holding : Holding) (arena : Arena) (term : String) (number : UInt16) (entry : Entry) :
    Except Fault (Holding × Arena) := do
  let parted := partAt number holding.groups
  match parted.found with
  | none =>
    let (body, arena) ← arena.newBody term entry
    let group : Group := ⟨number, body⟩
    let (groups, arrayClass, arena) :=
      grow arena holding.arrayClass (parted.before ++ group :: parted.after)
    return ({ groups, arrayClass, ids := holding.ids + 1
              bytes := holding.bytes + group.encodedSize
              maxBytes := max holding.maxBytes group.encodedSize }, arena)
  | some held =>
    let (body, added, arena) ← arena.put term held.body entry
    let group : Group := ⟨number, body⟩
    return ({ holding with
              groups := parted.before ++ group :: parted.after
              ids := if added then holding.ids + 1 else holding.ids
              bytes := holding.bytes + group.encodedSize - held.encodedSize
              maxBytes := max holding.maxBytes group.encodedSize }, arena)

/-- Removes an id, given by its group and member number; `none` if it is not there. -/
def erase (holding : Holding) (arena : Arena) (number member : UInt16) : Option (Holding × Arena) :=
  let parted := partAt number holding.groups
  match parted.found with
  | none => none
  | some held =>
    match arena.remove held.body member with
    | .absent => none
    | .emptied body =>
      let (groups, arrayClass, arena) :=
        shrink (arena.discard body) holding.arrayClass (parted.before ++ parted.after)
      some ({ holding with groups, arrayClass, ids := holding.ids - 1
                           bytes := holding.bytes - held.encodedSize }, arena)
    | .kept body arena =>
      let group : Group := ⟨number, body⟩
      some ({ holding with groups := parted.before ++ group :: parted.after
                           ids := holding.ids - 1
                           bytes := holding.bytes + group.encodedSize - held.encodedSize }, arena)

/-- Gives all blocks and the array back. -/
def release (holding : Holding) (arena : Arena) : Arena :=
  (holding.groups.foldl (fun arena group => arena.discard group.body) arena).giveArray
    holding.arrayClass

end Holding
end InvertedIndex
