import InvertedIndex.Cursor.Basic
import InvertedIndex.Cursor.Settle

/-!
# `InvertedIndex.Cursor.Step` — how composed cursors move

Moving a cursor moves the cursors below it, which changes where they stand but not the shape of the
tree. The recursion therefore goes by the height of the tree, and `Cursor.move` supplies that
height.

## Contents
- `rangePhase`, `singlePhase`: the leaves that consist of ids alone;
- `leastId`: where a union stands;
- `Cursor.moveWithin`: a move, given a bound on the height;
- the instance `IdStream (Cursor L)`.
-/

namespace InvertedIndex

/-! ## Ids alone -/

/-- The first candidate of a range at or after `low`, if it lies below `stop`. -/
def rangeFrom (stop low : DocId) : Phase := if low < stop then .hit low else .spent

/-- Where a range stands after a move. -/
def rangePhase (start stop : DocId) : Move → Phase → Phase
  | _, .spent => .spent
  | .next, .fresh => rangeFrom stop start
  | .next, .hit id => rangeFrom stop (id + 1)
  | .seek target, .fresh => rangeFrom stop (if start < target then target else start)
  | .seek target, .hit id => if target ≤ id then .hit id else rangeFrom stop target

/-- Where a single id stands after a move. -/
def singlePhase (id : DocId) : Move → Phase → Phase
  | _, .spent => .spent
  | .next, .fresh => .hit id
  | .next, .hit _ => .spent
  | .seek target, .fresh => if target ≤ id then .hit id else .spent
  | .seek target, .hit _ => if target ≤ id then .hit id else .spent

/-! ## Composed cursors -/

/-- The least of the ids other than `0`, or `0` if there is none. -/
def leastId : List DocId → DocId
  | [] => 0
  | id :: rest =>
    let least := leastId rest
    if id = 0 then least else if least = 0 then id else if id ≤ least then id else least

namespace Cursor

variable {L : Type} [IdStream L]

/-- Whether a cursor of a union that stands on `here` takes part in a move: all do in the first, and
    later those on the current id or below the target. -/
def joins (phase : Phase) (m : Move) (here : DocId) : Bool :=
  match phase, m with
  | .hit id, .next => here = id
  | .hit _, .seek target => here ≠ 0 ∧ here < target
  | _, _ => true

/-- The candidate at which all the streams stand, tried for consecutive positions; a refused
    candidate makes the leader go on. -/
def attemptPhrase (move : Move → Cursor L → Cursor L) :
    (Cursor L × List (Cursor L)) × DocId → Attempt ((Cursor L × List (Cursor L)) × DocId) :=
  fun ((lead, others), id) =>
    if Window.alignments (lead.window :: others.map window) = [] then
      .retry (align current (fun target => move (.seek target)) (move .next lead, others))
    else .accept ((lead, others), id)

/-- The candidate of `kept`, refused if `dropped` has it. -/
def attemptDiff (move : Move → Cursor L → Cursor L) :
    Cursor L × Cursor L → Attempt (Cursor L × Cursor L) :=
  fun (kept, dropped) =>
    let dropped := move (.seek kept.current) dropped
    if dropped.current = kept.current then .retry (move .next kept, dropped)
    else .accept (kept, dropped)

/-- The candidate of `inner`, refused if its window fails a condition. -/
def attemptFilter (move : Move → Cursor L → Cursor L) (conditions : List Condition) :
    Cursor L → Attempt (Cursor L) :=
  fun inner =>
    if conditions.all (Condition.holds inner.window) then .accept inner
    else .retry (move .next inner)

/-- Moves a cursor whose height is at most `height`. -/
def moveWithin : (height : Nat) → Move → Cursor L → Cursor L
  | 0, _, c => c
  | _ + 1, _, .empty => .empty
  | _ + 1, m, .leaf l => .leaf (IdStream.move m l)
  | _ + 1, m, .range start stop phase => .range start stop (rangePhase start stop m phase)
  | _ + 1, m, .single id phase => .single id (singlePhase id m phase)
  | height + 1, m, .inter subs phase =>
    if m.rests phase.current then .inter subs phase
    else
      match subs, phase with
      | [], _ | _, .spent => .inter subs .spent
      | lead :: others, _ =>
        let ((lead, others), id) :=
          align current (fun target => moveWithin height (.seek target))
            (moveWithin height m lead, others)
        .inter (lead :: others) (.ofId id)
  | height + 1, m, .union kind subs phase =>
    if m.rests phase.current then .union kind subs phase
    else
      match phase with
      | .spent => .union kind subs .spent
      | _ =>
        let subs := subs.map fun c => if joins phase m c.current then moveWithin height m c else c
        .union kind subs (.ofId (leastId (subs.map current)))
  | height + 1, m, .diff kept dropped =>
    if m.rests kept.current then .diff kept dropped
    else
      let ((kept, dropped), _) :=
        settle (fun s => s.1.current) (attemptDiff (moveWithin height))
          (moveWithin height m kept, dropped)
      .diff kept dropped
  | height + 1, m, .phrase subs phase =>
    if m.rests phase.current then .phrase subs phase
    else
      match subs, phase with
      | [], _ | _, .spent => .phrase subs .spent
      | lead :: others, _ =>
        let (((lead, others), _), id) :=
          settle Prod.snd (attemptPhrase (moveWithin height))
            (align current (fun target => moveWithin height (.seek target))
              (moveWithin height m lead, others))
        .phrase (lead :: others) (.ofId id)
  | height + 1, m, .filter inner conditions =>
    if m.rests inner.current then .filter inner conditions
    else
      .filter (settle current (attemptFilter (moveWithin height) conditions)
        (moveWithin height m inner)).1 conditions

/-- Makes a move. -/
def move (m : Move) (c : Cursor L) : Cursor L := moveWithin c.height m c

instance : IdStream (Cursor L) where
  current := current
  window := window
  next := move .next
  seek target := move (.seek target)

end Cursor
end InvertedIndex
