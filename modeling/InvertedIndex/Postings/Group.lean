import InvertedIndex.Fault
import InvertedIndex.Postings.Entry
import InvertedIndex.Postings.Pool

/-!
# `InvertedIndex.Postings.Group` — the postings of a term in one group of ids

A group that holds one short payload keeps it in place. Any other keeps its entries in a block from
the arena, of the least size class that has room for them, and moves to another block when its class
changes.

## Contents
- `Group`, `Group.find?`, `Group.encodedSize`;
- `Cut`, `cutAt`: a block cut at a member number;
- `Arena`: the pools that all terms share, and the bytes handed out;
- `Arena.newBody`, `Arena.put`, `Arena.remove`, `Arena.discard`: a group made, extended, reduced,
  given up.
-/

namespace InvertedIndex

/-! ## Groups -/

/-- How a group keeps its entries. -/
inductive GroupBody where
  /-- One entry with a short payload. -/
  | inline (entry : Entry)
  /-- A block of the class with the bytes of the entries. -/
  | block (sizeClass : SizeClass) (bytes : Bytes)
  deriving Repr, DecidableEq

/-- The postings of one term in one group of ids. -/
structure Group where
  /-- The group of the ids. -/
  number : UInt16
  body : GroupBody
  deriving Repr, DecidableEq

/-- A block cut at a member number. -/
structure Cut where
  /-- How many bytes the entries with smaller numbers occupy. -/
  place : Nat
  /-- The entry with the number. -/
  found : Option Entry
  /-- The bytes of the later entries. -/
  after : Bytes

/-- Cuts a block at a member number. The payloads in front of the place are passed over unread. -/
def cutAt (member : UInt16) (bytes : Bytes) : Cut :=
  match _h : Entry.readHead? bytes with
  | none => ⟨0, none, bytes⟩
  | some (head, rest) =>
    if head.member < member then
      let cut := cutAt member (rest.drop head.length)
      { cut with place := Entry.encodedSize head.length + cut.place }
    else if head.member = member then
      match Bytes.take? head.length rest with
      | none => ⟨0, none, bytes⟩
      | some (payload, after) => ⟨0, some ⟨member, payload⟩, after⟩
    else ⟨0, none, bytes⟩
termination_by bytes.length
decreasing_by
  have := Entry.readHead?_length _h
  simp only [List.length_drop]
  omega

namespace Group

/-- The payload of a member. -/
def find? (group : Group) (member : UInt16) : Option Bytes :=
  match group.body with
  | .inline entry => if entry.member = member then some entry.payload else none
  | .block _ bytes => (cutAt member bytes).found.map Entry.payload

/-- The bytes that the entries occupy, or would in a block. -/
def encodedSize (group : Group) : Nat :=
  match group.body with
  | .inline entry => Entry.encodedSize entry.payload.length
  | .block _ bytes => bytes.length

end Group

/-! ## The arena -/

/-- The bytes in a unit of a block, and the bytes that a place in an array of groups counts for. -/
def blockUnit : Nat := 10

/-- The storage that the terms share. -/
structure Arena where
  /-- Blocks of encoded entries. -/
  blocks : Pool UInt8
  /-- Arrays of groups. -/
  arrays : Pool Group
  /-- The bytes of all blocks and arrays in use, at the full size of their classes. -/
  totalBytes : Nat

namespace Arena

/-- An arena with nothing handed out. -/
def new : Arena := ⟨Pool.new blockUnit, Pool.new 1, 0⟩

/-- The class of a block with room for so many bytes. -/
def blockClass (arena : Arena) (term : String) (size : Nat) : Except Fault SizeClass :=
  match arena.blocks.classFor? size with
  | some c => .ok c
  | none => .error (.postingTooLarge term size)

/-- Hands out a block of the class. -/
def takeBlock (arena : Arena) (c : SizeClass) : Bytes × Arena :=
  let (buffer, blocks) := arena.blocks.take c
  (buffer, { arena with blocks, totalBytes := arena.totalBytes + arena.blocks.capacity c })

/-- Takes a block of the class back. -/
def giveBlock (arena : Arena) (c : SizeClass) : Arena :=
  { arena with
    blocks := arena.blocks.give c
    totalBytes := arena.totalBytes - arena.blocks.capacity c }

/-- Moves a block of one class, filled with `bytes`, to another class. -/
def moveBlock (arena : Arena) (source target : SizeClass) (bytes : Bytes) : GroupBody × Arena :=
  let (buffer, arena) := arena.takeBlock target
  (.block target (buffer ++ bytes), arena.giveBlock source)

/-- Fails if even the smallest block for one payload of so many bytes does not exist. -/
def checkPayload (arena : Arena) (term : String) (length : Nat) : Except Fault Unit :=
  (arena.blockClass term (Entry.encodedSize length)).map fun _ => ()

/-- The body of a group with a single entry. -/
def newBody (arena : Arena) (term : String) (entry : Entry) : Except Fault (GroupBody × Arena) :=
  if entry.payload.length ≤ inlineCapacity then .ok (.inline entry, arena)
  else do
    let c ← arena.blockClass term (Entry.encodedSize entry.payload.length)
    let (buffer, arena) := arena.takeBlock c
    return (.block c (buffer ++ entry.encode), arena)

/-- Puts an entry into a body, in place of any with its member number; also tells whether the number
    is new. -/
def put (arena : Arena) (term : String) (body : GroupBody) (entry : Entry) :
    Except Fault (GroupBody × Bool × Arena) :=
  match body with
  | .inline held =>
    if held.member = entry.member then do
      let (body, arena) ← arena.newBody term entry
      return (body, false, arena)
    else do
      let size := Entry.encodedSize held.payload.length + Entry.encodedSize entry.payload.length
      let c ← arena.blockClass term size
      let (buffer, arena) := arena.takeBlock c
      let entries := if held.member < entry.member then [held, entry] else [entry, held]
      return (.block c (buffer ++ Entry.encodeAll entries), true, arena)
  | .block c bytes => do
    let cut := cutAt entry.member bytes
    let bytes := bytes.take cut.place ++ (entry.encode ++ cut.after)
    let target ← arena.blockClass term bytes.length
    let added := cut.found.isNone
    if target = c then return (.block c bytes, added, arena)
    else
      let (body, arena) := arena.moveBlock c target bytes
      return (body, added, arena)

/-- What is left of a body. -/
inductive Remainder where
  /-- The member was not there. -/
  | absent
  /-- It was the last one; `body` is what held it. -/
  | emptied (body : GroupBody)
  /-- Others are left. -/
  | kept (body : GroupBody) (arena : Arena)

/-- The single entry in `bytes`, if it is short enough to do without a block. -/
def lone? (bytes : Bytes) : Option Entry :=
  match Entry.decode? bytes with
  | some (entry, []) => if entry.payload.length ≤ inlineCapacity then some entry else none
  | _ => none

/-- Removes the entry of a member from a body. -/
def remove (arena : Arena) (body : GroupBody) (member : UInt16) : Remainder :=
  match body with
  | .inline held => if held.member = member then .emptied body else .absent
  | .block c bytes =>
    let cut := cutAt member bytes
    if cut.found.isNone then .absent
    else
      let bytes := bytes.take cut.place ++ cut.after
      if bytes.isEmpty then .emptied body
      else
        match lone? bytes with
        | some entry => .kept (.inline entry) (arena.giveBlock c)
        | none =>
          match arena.blocks.classFor? bytes.length with
          | some target =>
            if target < c then
              let (body, arena) := arena.moveBlock c target bytes
              .kept body arena
            else .kept (.block c bytes) arena
          | none => .kept (.block c bytes) arena

/-- Takes back the block of a group that is given up. -/
def discard (arena : Arena) : GroupBody → Arena
  | .inline _ => arena
  | .block c _ => arena.giveBlock c

/-- Moves an array of groups from one class to another. -/
def moveArray (arena : Arena) (source target : SizeClass) (groups : List Group) :
    List Group × Arena :=
  let (buffer, arrays) := arena.arrays.take target
  (buffer ++ groups,
    { arena with
      arrays := arrays.give source
      totalBytes := arena.totalBytes - arena.arrays.capacity source * blockUnit
        + arena.arrays.capacity target * blockUnit })

/-- Takes back an array of the class. -/
def giveArray (arena : Arena) (c : SizeClass) : Arena :=
  { arena with
    arrays := arena.arrays.give c
    totalBytes := arena.totalBytes - arena.arrays.capacity c * blockUnit }

end Arena
end InvertedIndex
