import InvertedIndex.Window

/-!
# `InvertedIndex.Window.Alignment` — consecutive positions across windows

The words of a phrase stand at consecutive positions: the phrase **starts** at `p` when the first
window holds `p`, the second `p + 1`, the third `p + 2`, and so on. All windows are read from the
front in one pass; a window that has moved past its place names the next start worth trying, and a
window that runs out ends the search.

## Contents
- `Fit`, `fit`: one candidate start held against the later windows;
- `Window.alignments`: every start, in the order of the first window.
-/

namespace InvertedIndex
namespace Window

/-- How a candidate start fits the later windows. The windows that come back have lost the positions
    before their place. -/
inductive Fit where
  /-- Every window holds its place. -/
  | aligned (windows : List Window)
  /-- Some window has only later positions; no start before `start` can fit it. -/
  | overshoot (start : Nat) (windows : List Window)
  /-- Some window has no position left. -/
  | dry

/-- Holds `start` against `windows`, the first of which should hold `start + offset`, the next
    `start + offset + 1`, and so on. -/
def fit (start offset : Nat) : List Window → Fit
  | [] => .aligned []
  | window :: later =>
    match window.dropWhile (fun p => p.toNat < start + offset) with
    | [] => .dry
    | p :: rest =>
      if start + offset < p.toNat then .overshoot (p.toNat - offset) ((p :: rest) :: later)
      else
        match fit start (offset + 1) later with
        | .aligned windows => .aligned ((p :: rest) :: windows)
        | .overshoot next windows => .overshoot next ((p :: rest) :: windows)
        | .dry => .dry

/-- The starts in `lead` that fit all of `later`. -/
def alignedStarts (lead : Window) (later : List Window) : Window :=
  match lead with
  | [] => []
  | p :: rest =>
    match fit p.toNat 1 later with
    | .dry => []
    | .aligned windows => p :: alignedStarts rest windows
    | .overshoot next windows =>
      alignedStarts (rest.dropWhile (fun q => q.toNat < next)) windows
termination_by lead.length
decreasing_by
  · exact Nat.lt_succ_self _
  · exact Nat.lt_succ_of_le (List.dropWhile_suffix _).length_le

/-- The starts of a phrase whose words have the given windows, in order; a phrase without words has
    none. -/
def alignments : List Window → Window
  | [] => []
  | lead :: later => alignedStarts lead later

end Window
end InvertedIndex
