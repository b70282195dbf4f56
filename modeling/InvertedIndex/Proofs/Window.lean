import InvertedIndex.Proofs.Bytes
import InvertedIndex.Window
import Mathlib.Data.List.Perm.Subperm
import Mathlib.Data.List.Sort

/-!
# `Proofs.Window` — windows are ascending lists of positions

The window of a list of positions has the same positions in strictly ascending order, so it is the
only window with them. Recorded as a payload, it is read back as it was.

## Contents
- `Window.ofPositions_ascending`, `Window.mem_ofPositions`, `Window.ofPositions_eq`;
- `Window.decode_encode`: a window read back; `Window.encode_length_le`: the bytes it takes up.
-/

namespace InvertedIndex
namespace Window

/-! ## Ascending windows -/

theorem mem_dropRepeats {window : Window} {p : Position} :
    p ∈ dropRepeats window ↔ p ∈ window := by
  fun_induction dropRepeats window with
  | case1 a rest ih => simp [ih]
  | case2 a b rest hne ih => simp [ih]
  | case3 window => rfl

/-- Without repeats, positions that do not descend ascend. -/
theorem dropRepeats_ascending {window : Window} (h : window.Pairwise (· ≤ ·)) :
    (dropRepeats window).Pairwise (· < ·) := by
  fun_induction dropRepeats window with
  | case1 a rest ih => exact ih (List.pairwise_cons.1 h).2
  | case2 a b rest hne ih =>
    obtain ⟨hfirst, hrest⟩ := List.pairwise_cons.1 h
    refine List.pairwise_cons.2 ⟨?_, ih hrest⟩
    intro p hp
    have hab : a < b := UInt16.lt_of_le_of_ne (hfirst b List.mem_cons_self) hne
    rcases List.mem_cons.1 (mem_dropRepeats.1 hp) with rfl | hlater
    · exact hab
    · exact UInt16.lt_of_lt_of_le hab ((List.pairwise_cons.1 hrest).1 p hlater)
  | case3 window hshort =>
    match window, hshort with
    | [], _ => exact .nil
    | [a], _ => exact List.pairwise_singleton _ a
    | a :: b :: rest, hshort => exact (hshort a b rest rfl).elim

@[simp] theorem mem_ofPositions {positions : List Position} {p : Position} :
    p ∈ ofPositions positions ↔ p ∈ positions := by
  rw [ofPositions, mem_dropRepeats, List.mem_mergeSort]

theorem ofPositions_ascending (positions : List Position) :
    (ofPositions positions).Pairwise (· < ·) := by
  have htrans (a b c : Position) (hab : decide (a ≤ b) = true) (hbc : decide (b ≤ c) = true) :
      decide (a ≤ c) = true :=
    decide_eq_true (UInt16.le_trans (of_decide_eq_true hab) (of_decide_eq_true hbc))
  have htotal (a b : Position) : (decide (a ≤ b) || decide (b ≤ a)) = true := by
    simpa using UInt16.le_total a b
  have hsorted := List.pairwise_mergeSort htrans htotal positions
  exact dropRepeats_ascending (hsorted.imp of_decide_eq_true)

/-- **There is one window with given positions.** -/
theorem ofPositions_eq {positions : List Position} {window : Window}
    (hasc : window.Pairwise (· < ·)) (hmem : ∀ p, p ∈ window ↔ p ∈ positions) :
    ofPositions positions = window :=
  (ofPositions_ascending positions).eq_of_mem_iff hasc fun p =>
    mem_ofPositions.trans (hmem p).symm

theorem eq_ofPositions_iff {window : Window} {positions : List Position} :
    window = ofPositions positions
      ↔ window.Pairwise (· < ·) ∧ ∀ p, p ∈ window ↔ p ∈ positions := by
  constructor
  · rintro rfl
    exact ⟨ofPositions_ascending positions, fun p => mem_ofPositions⟩
  · rintro ⟨hasc, hmem⟩
    exact (ofPositions_eq hasc hmem).symm

/-! ## Payloads -/

theorem pairs_flatMap (window : Window) : pairs (window.flatMap Bytes.ofUInt16) = window := by
  induction window with
  | nil => rfl
  | cons p rest ih =>
    rw [List.flatMap_cons]
    show Bytes.toUInt16 _ _ :: pairs (rest.flatMap Bytes.ofUInt16) = _
    rw [Bytes.toUInt16_bytes, ih]

theorem flatMap_length (window : Window) :
    (window.flatMap Bytes.ofUInt16).length = 2 * window.length := by
  induction window with
  | nil => rfl
  | cons p rest ih =>
    rw [List.flatMap_cons, List.length_append, ih, Bytes.ofUInt16_length, List.length_cons]
    omega

/-- **Recorded positions are read back as a window.** -/
theorem decode_encode (positions : List Position) :
    decode (encode positions) = ofPositions positions := by
  have heven : (encode positions).length % 2 = 0 := by
    rw [encode, flatMap_length]
    omega
  rw [decode, if_pos heven, encode, pairs_flatMap]

/-- Positions that a snapshot can hold take up two bytes for each of them at most. -/
theorem encode_length_le {positions : List Position}
    (h : ∀ p ∈ positions, p ≤ largestPosition) : (encode positions).length ≤ 32768 := by
  have hnodup : ((ofPositions positions).map UInt16.toNat).Nodup := by
    refine List.pairwise_map.2 ((ofPositions_ascending positions).imp ?_)
    intro a b hlt
    exact Nat.ne_of_lt (UInt16.lt_iff_toNat_lt.1 hlt)
  have hsubset : (ofPositions positions).map UInt16.toNat ⊆ List.range 16384 := by
    intro number hnumber
    obtain ⟨p, hp, rfl⟩ := List.mem_map.1 hnumber
    have hle := UInt16.le_iff_toNat_le.1 (h p (mem_ofPositions.1 hp))
    exact List.mem_range.2 (Nat.lt_succ_of_le hle)
  have hle := (List.subperm_of_subset hnodup hsubset).length_le
  rw [List.length_map, List.length_range] at hle
  rw [encode, flatMap_length]
  omega

end Window
end InvertedIndex
