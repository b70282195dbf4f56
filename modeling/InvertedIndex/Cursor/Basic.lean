import InvertedIndex.Cursor.Protocol
import InvertedIndex.Window.Condition
import InvertedIndex.Window.Alignment

/-!
# `InvertedIndex.Cursor.Basic` — composed cursors

A cursor is a tree. Its leaves are streams over stored postings, or made up of ids alone; its inner
nodes intersect, unite, subtract, demand consecutive positions, or filter by position.

## Contents
- `CursorKind`: what kind of node a cursor is;
- `Phase`: where a node stands;
- `Cursor`, with `current`, `window`, `kind` and `height`;
- `Cursor.ofRange`, `Cursor.ofId`, `Cursor.interOf`, …: cursors before their first move;
- `Cursor.wildcard`, `Cursor.filtered`: the two constructions that depend on what they are given.
-/

namespace InvertedIndex

/-- The kind of a cursor. -/
inductive CursorKind where
  | empty | term | and | or | positionalOr | wildcardOr | not | phrase | filter | range | single
  deriving Repr, DecidableEq

/-- Whether cursors of the kind have meaningful windows. -/
def CursorKind.hasPositions : CursorKind → Bool
  | .term | .positionalOr | .wildcardOr | .phrase | .filter => true
  | _ => false

/-- Where a node stands. -/
inductive Phase where
  /-- Before the first move. -/
  | fresh
  /-- On an id. -/
  | hit (id : DocId)
  /-- Past the last id. -/
  | spent
  deriving Repr, DecidableEq

namespace Phase

/-- The id stood on, `0` if none. -/
def current : Phase → DocId
  | .hit id => id
  | _ => 0

/-- On the id, or past the last if it is `0`. -/
def ofId (id : DocId) : Phase := if id = 0 then .spent else .hit id

end Phase

/-- The ways to unite. -/
inductive UnionKind where
  /-- Ids alone. -/
  | plain
  /-- Ids with the common window of the cursors that stand on them. -/
  | positional
  /-- The same, over the terms with a common stem. -/
  | wildcard
  deriving Repr, DecidableEq

/-- A cursor over leaves of type `L`. -/
inductive Cursor (L : Type) where
  /-- No ids. -/
  | empty
  /-- The ids of a leaf. -/
  | leaf (leaf : L)
  /-- The ids from `start` up to but not including `stop`. -/
  | range (start stop : DocId) (phase : Phase)
  /-- The one id. -/
  | single (id : DocId) (phase : Phase)
  /-- The ids that all of `subs` have; none if there are no `subs`. -/
  | inter (subs : List (Cursor L)) (phase : Phase)
  /-- The ids that any of `subs` has. -/
  | union (kind : UnionKind) (subs : List (Cursor L)) (phase : Phase)
  /-- The ids of `kept` that `dropped` does not have. -/
  | diff (kept dropped : Cursor L)
  /-- The ids that all of `subs` have at consecutive positions. -/
  | phrase (subs : List (Cursor L)) (phase : Phase)
  /-- The ids of `inner` whose window passes every condition. -/
  | filter (inner : Cursor L) (conditions : List Condition)

namespace Cursor

variable {L : Type}

/-! ## Observations -/

/-- The kind of a cursor. -/
def kind : Cursor L → CursorKind
  | .empty => .empty
  | .leaf _ => .term
  | .range _ _ _ => .range
  | .single _ _ => .single
  | .inter _ _ => .and
  | .union .plain _ _ => .or
  | .union .positional _ _ => .positionalOr
  | .union .wildcard _ _ => .wildcardOr
  | .diff _ _ => .not
  | .phrase _ _ => .phrase
  | .filter _ _ => .filter

/-- Steps from a node down to its deepest leaf, the node included. -/
def height : Cursor L → Nat
  | .inter subs _ | .union _ subs _ | .phrase subs _ => heights subs + 1
  | .diff kept dropped => max kept.height dropped.height + 1
  | .filter inner _ => inner.height + 1
  | .empty | .leaf _ | .range _ _ _ | .single _ _ => 1
where
  /-- The height of the tallest. -/
  heights : List (Cursor L) → Nat
    | [] => 0
    | c :: rest => max c.height (heights rest)

variable [IdStream L]

/-- The id the cursor stands on. -/
def current : Cursor L → DocId
  | .empty => 0
  | .leaf l => IdStream.current l
  | .range _ _ phase | .single _ phase | .inter _ phase | .union _ _ phase | .phrase _ phase =>
    phase.current
  | .diff kept _ => kept.current
  | .filter inner _ => inner.current

/-- The positions matched at the current id. A positional union unites the windows of the cursors
    that stand on it; a phrase has the positions at which it starts. -/
def window : Cursor L → Window
  | .leaf l => IdStream.window l
  | .union .plain _ _ => []
  | .union _ subs phase =>
    if phase.current = 0 then [] else Window.unite (windowsAt phase.current subs)
  | .diff kept _ => kept.window
  | .phrase subs phase => if phase.current = 0 then [] else Window.alignments (windows subs)
  | .filter inner _ => inner.window
  | .empty | .range _ _ _ | .single _ _ | .inter _ _ => []
where
  /-- The windows of all. -/
  windows : List (Cursor L) → List Window
    | [] => []
    | c :: rest => c.window :: windows rest
  /-- The windows of those that stand on `id`. -/
  windowsAt (id : DocId) : List (Cursor L) → List Window
    | [] => []
    | c :: rest => if c.current = id then c.window :: windowsAt id rest else windowsAt id rest

/-! ## Cursors before their first move -/

omit [IdStream L] in
/-- The ids from `start` up to but not including `stop`; `0` is not one of them. -/
def ofRange (start stop : DocId) : Cursor L := .range (if start = 0 then 1 else start) stop .fresh

omit [IdStream L] in
/-- The one id, none if it is `0`. -/
def ofId (id : DocId) : Cursor L := .single id (if id = 0 then .spent else .fresh)

omit [IdStream L] in
/-- The intersection. -/
def interOf (subs : List (Cursor L)) : Cursor L := .inter subs .fresh

omit [IdStream L] in
/-- The union. -/
def unionOf (kind : UnionKind) (subs : List (Cursor L)) : Cursor L := .union kind subs .fresh

omit [IdStream L] in
/-- The phrase. -/
def phraseOf (subs : List (Cursor L)) : Cursor L := .phrase subs .fresh

omit [IdStream L] in
/-- The union over the terms with a common stem; a single cursor stands for itself. -/
def wildcard : List (Cursor L) → Cursor L
  | [] => .empty
  | [c] => c
  | subs => unionOf .wildcard subs

omit [IdStream L] in
/-- Filters a cursor that has positions; any other comes back as it is. -/
def filtered (inner : Cursor L) (condition : Condition) : Cursor L :=
  if inner.kind.hasPositions then .filter inner [condition] else inner

end Cursor
end InvertedIndex
