/-!
# `InvertedIndex.Snapshot.SortedRuns` — sorting within a budget

Records arrive in any order and are held until they take up the budget; then they are sorted and put
aside as a run. In the end the runs are merged. Among records with the same key only the one that
arrived first is kept: sorting and merging never exchange records with equal keys, and of neighbours
with equal keys the first stays.

## Contents
- `SortRecord`: the key of a record and its size;
- `RunSorter`, `RunSorter.push`, `RunSorter.runCount`;
- `RunSorter.mergeRuns`, `RunSorter.dropDuplicates`, `RunSorter.finish`.
-/

namespace InvertedIndex

/-- Records that can be sorted within a budget. -/
class SortRecord (α : Type) where
  /-- The order of the keys. -/
  compareKeys : α → α → Ordering
  /-- About how many bytes a record takes up. -/
  footprint : α → Nat

/-- Records that are being sorted. -/
structure RunSorter (α : Type) where
  /-- The bytes that are held before a run is put aside. -/
  budget : Nat
  /-- The records held, last one first. -/
  held : List α := []
  /-- The bytes they take up. -/
  heldBytes : Nat := 0
  /-- The sorted runs put aside, last one first. -/
  runs : List (List α) := []

namespace RunSorter

variable {α : Type} [SortRecord α]

/-- Whether the key of `a` is at most that of `b`. -/
def keyLE (a b : α) : Bool := (SortRecord.compareKeys a b).isLE

omit [SortRecord α] in
/-- A sorter that holds nothing; it puts aside a run after every record if the budget is `0`. -/
def new (budget : Nat) : RunSorter α := { budget := max budget 1 }

/-- Puts the records held aside as a sorted run, if there are any. -/
def spill (sorter : RunSorter α) : RunSorter α :=
  if sorter.held.isEmpty then sorter
  else
    { sorter with
      held := [], heldBytes := 0, runs := sorter.held.reverse.mergeSort keyLE :: sorter.runs }

/-- Takes a record. -/
def push (sorter : RunSorter α) (record : α) : RunSorter α :=
  let sorter :=
    { sorter with
      held := record :: sorter.held
      heldBytes := sorter.heldBytes + SortRecord.footprint record }
  if sorter.budget ≤ sorter.heldBytes then sorter.spill else sorter

omit [SortRecord α] in
/-- How many runs were put aside. -/
def runCount (sorter : RunSorter α) : Nat := sorter.runs.length

/-- Takes the record that comes first off the runs: the least of those that stand at their fronts,
    and of equal keys that of the earliest run. -/
def takeLeast? : List (List α) → Option (α × List (List α))
  | [] => none
  | [] :: runs => (takeLeast? runs).map fun (least, runs) => (least, [] :: runs)
  | (first :: rest) :: runs =>
    match takeLeast? runs with
    | none => some (first, rest :: runs)
    | some (least, others) =>
      if keyLE first least then some (first, rest :: runs)
      else some (least, (first :: rest) :: others)

/-- What is taken is gone from the runs. -/
theorem takeLeast?_length {runs others : List (List α)} {least : α}
    (h : takeLeast? runs = some (least, others)) :
    others.flatten.length + 1 = runs.flatten.length := by
  induction runs generalizing others least with
  | nil => cases h
  | cons run runs ih =>
    cases run with
    | nil =>
      obtain ⟨⟨_, _⟩, htaken, heq⟩ := Option.map_eq_some_iff.1 h
      cases heq
      have hlength := ih htaken
      exact hlength
    | cons first rest =>
      unfold takeLeast? at h
      split at h
      · cases h
        simp
      next htaken =>
        have hlength := ih htaken
        split at h
        · cases h
          simp
        · cases h
          simp only [List.flatten_cons, List.length_append]
          omega

/-- Merges sorted runs. -/
def mergeRuns (runs : List (List α)) : List α :=
  match _h : takeLeast? runs with
  | none => []
  | some (least, others) => least :: mergeRuns others
termination_by runs.flatten.length
decreasing_by exact Nat.lt_of_succ_le (Nat.le_of_eq (takeLeast?_length _h))

/-- Drops each record whose key equals that of the one before it. -/
def dropDuplicates : List α → List α
  | [] => []
  | first :: rest => first :: dropAfter first rest
where
  /-- The same behind a record that was kept. -/
  dropAfter (last : α) : List α → List α
    | [] => []
    | record :: rest =>
      if SortRecord.compareKeys last record = .eq then dropAfter last rest
      else record :: dropAfter record rest

/-- All records, ascending by key and without duplicates. -/
def finish (sorter : RunSorter α) : List α :=
  dropDuplicates (mergeRuns sorter.spill.runs.reverse)

end RunSorter
end InvertedIndex
