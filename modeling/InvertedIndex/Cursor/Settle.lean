import InvertedIndex.Cursor.Protocol

/-!
# `InvertedIndex.Cursor.Settle` — trying candidates in ascending order

Intersections, differences, phrases and filters find their next id in the same way: a candidate is
tried, and when it is refused the search goes on with a larger one. `settle` is that loop. It ends
because candidates ascend; a state whose candidate does not is treated like one without a candidate.
-/

namespace InvertedIndex

/-- What became of a candidate. -/
inductive Attempt (S : Type) where
  /-- The candidate is taken, in this state. -/
  | accept (s : S)
  /-- The candidate is refused; this state holds the next one. -/
  | retry (s : S)

/-- Tries the candidate of `s` and its successors until one is taken, and returns the state and the
    candidate taken, or `0` when there is none left. -/
def settle {S : Type} (candidate : S → DocId) (attempt : S → Attempt S) (s : S) : S × DocId :=
  if candidate s = 0 then (s, 0)
  else
    match attempt s with
    | .accept s' => (s', candidate s)
    | .retry s' => if candidate s < candidate s' then settle candidate attempt s' else (s', 0)
termination_by UInt32.size - (candidate s).toNat
decreasing_by exact DocId.above_lt ‹_›

/-- Seeks `id` in each stream in turn, up to the first that has no such id; returns the streams and
    the id that this one stands on instead, or `id` when all have it. -/
def seekAll {C : Type} (current : C → DocId) (seek : DocId → C → C) (id : DocId) :
    List C → List C × DocId
  | [] => ([], id)
  | c :: rest =>
    let c := seek id c
    if current c = id then
      let (rest, got) := seekAll current seek id rest
      (c :: rest, got)
    else (c :: rest, current c)

/-- Brings the leading stream and the others to a common id. The leader proposes; where another
    stream overshoots, the leader seeks that id and proposes again. Returns the streams and the
    common id, or `0` when there is none. -/
def align {C : Type} (current : C → DocId) (seek : DocId → C → C) :
    C × List C → (C × List C) × DocId :=
  settle (fun s => current s.1) fun (lead, others) =>
    let (others, got) := seekAll current seek (current lead) others
    if got = current lead then .accept (lead, others) else .retry (seek got lead, others)

end InvertedIndex
