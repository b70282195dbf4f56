import InvertedIndex.Proofs.Window.Places

/-!
# `Proofs.Window.LockStep` — scanning the windows of a phrase by pointers

A caller hands the scan for phrases all the windows and a buffer for the starts. Nothing is taken
off the windows: each has a pointer to its first position that has not been passed. The pointers
only ever move forward, also from one start to the next, and the position that a window should hold
is computed as a 32-bit number. What the scan leaves in the buffer are the alignments of the
windows; no sum that it forms exceeds 17 bits, for a window would run out before.

## Contents
- `seek`, `Pointed`, `hold`: pointers, and one start held against the later windows;
- `collectFrom`, `collect`: all starts;
- `hold_fit`, `collectFrom_eq`: the scan by pointers does what `fit` and `alignedStarts` do;
- `collect_exact`: which positions it finds.
-/

namespace InvertedIndex
namespace Window

/-! ## Pointers -/

/-- The pointer moved past the positions below a bound. -/
def seek (window : Window) (bound : UInt32) (place : Nat) : Nat :=
  match _h : window[place]? with
  | none => place
  | some p => if p.toUInt32 < bound then seek window bound (place + 1) else place
termination_by window.length - place
decreasing_by
  obtain ⟨hplace, -⟩ := List.getElem?_eq_some_iff.1 _h
  omega

theorem le_seek (window : Window) (bound : UInt32) (place : Nat) :
    place ≤ seek window bound place := by
  fun_induction seek window bound place with
  | case1 => exact Nat.le_refl _
  | case2 place p hread hlt ih => exact (Nat.le_succ place).trans ih
  | case3 => exact Nat.le_refl _

theorem lt_seek {window : Window} {bound : UInt32} {place : Nat} {p : Position}
    (hread : window[place]? = some p) (hlt : p.toUInt32 < bound) :
    place < seek window bound place := by
  unfold seek
  split
  next hnone =>
    rw [hread] at hnone
    cases hnone
  next q hsome =>
    rw [hread] at hsome
    cases hsome
    rw [if_pos hlt]
    exact le_seek window bound (place + 1)

/-- What stands behind a pointer. -/
theorem drop_eq_cons {window : Window} {place : Nat} {p : Position}
    (hread : window[place]? = some p) : window.drop place = p :: window.drop (place + 1) := by
  obtain ⟨hplace, rfl⟩ := List.getElem?_eq_some_iff.1 hread
  exact List.drop_eq_getElem_cons hplace

theorem drop_seek (window : Window) (bound : UInt32) (place : Nat) :
    window.drop (seek window bound place)
      = (window.drop place).dropWhile fun p => p.toNat < bound.toNat := by
  fun_induction seek window bound place with
  | case1 place hread => simp [List.drop_eq_nil_of_le (List.getElem?_eq_none_iff.1 hread)]
  | case2 place p hread hlt ih =>
    rw [ih, drop_eq_cons hread, List.dropWhile_cons_of_pos]
    exact decide_eq_true (UInt32.lt_iff_toNat_lt.1 hlt)
  | case3 place p hread hge =>
    rw [drop_eq_cons hread, List.dropWhile_cons_of_neg]
    exact fun h => hge (UInt32.lt_iff_toNat_lt.2 (of_decide_eq_true h))

/-- A window with its pointer. -/
structure Pointed where
  window : Window
  place : Nat

/-- The positions that have not been passed. -/
def Pointed.left (pointed : Pointed) : Window := pointed.window.drop pointed.place

/-! ## One start -/

/-- How a start fits windows with pointers. -/
inductive Held where
  /-- Every window holds its place. -/
  | aligned (windows : List Pointed)
  /-- Some window has only later positions; no start before `start` can fit it. -/
  | overshoot (start : UInt32) (windows : List Pointed)
  /-- Some window has no position left. -/
  | dry

/-- The same, with the positions that are left in place of the pointers. -/
def Held.fit : Held → Fit
  | .aligned windows => .aligned (windows.map Pointed.left)
  | .overshoot start windows => .overshoot start.toNat (windows.map Pointed.left)
  | .dry => .dry

/-- Holds `start` against the windows of the later words, from the one with the given index on. -/
def hold (start : UInt32) (index : Nat) : List Pointed → Held
  | [] => .aligned []
  | ⟨window, place⟩ :: later =>
    let target := start + index.toUInt32 + 1
    let place := seek window target place
    match window[place]? with
    | none => .dry
    | some p =>
      if target < p.toUInt32 then
        .overshoot (p.toUInt32 - (index.toUInt32 + 1)) (⟨window, place⟩ :: later)
      else
        match hold start (index + 1) later with
        | .aligned windows => .aligned (⟨window, place⟩ :: windows)
        | .overshoot next windows => .overshoot next (⟨window, place⟩ :: windows)
        | .dry => .dry

/-- **A start is held by pointers as it is by taking positions off the windows.** A start and an
    index that reach beyond 16 bits do not occur: the window before would have run out. -/
theorem hold_fit {start : UInt32} {index : Nat} (hreach : start.toNat + index ≤ 0xFFFF)
    (windows : List Pointed) :
    (hold start index windows).fit
      = Window.fit start.toNat (index + 1) (windows.map Pointed.left) := by
  induction windows generalizing index with
  | nil => rfl
  | cons pointed later ih =>
    obtain ⟨window, place⟩ := pointed
    have hindex : (index.toUInt32 + 1).toNat = index + 1 := by
      rw [UInt32.toNat_add]
      show (index % 2 ^ 32 + 1) % 2 ^ 32 = index + 1
      omega
    have htarget : (start + index.toUInt32 + 1).toNat = start.toNat + (index + 1) := by
      rw [UInt32.add_assoc, UInt32.toNat_add, hindex]
      exact Nat.mod_eq_of_lt (by omega)
    have hleft := drop_seek window (start + index.toUInt32 + 1) place
    rw [htarget] at hleft
    unfold hold Window.fit
    simp only [List.map_cons, Pointed.left, ← hleft]
    cases hread : window[seek window (start + index.toUInt32 + 1) place]? with
    | none =>
      rw [List.drop_eq_nil_of_le (List.getElem?_eq_none_iff.1 hread)]
      rfl
    | some p =>
      have hp : p.toUInt32.toNat = p.toNat := UInt16.toNat_toUInt32 p
      have hlarge := p.toNat_lt
      simp only [drop_eq_cons hread, UInt32.lt_iff_toNat_lt, htarget, hp]
      split
      next hover =>
        have hle : index.toUInt32 + 1 ≤ p.toUInt32 := by
          rw [UInt32.le_iff_toNat_le, hp, hindex]
          omega
        have hnext : (p.toUInt32 - (index.toUInt32 + 1)).toNat = p.toNat - (index + 1) := by
          rw [UInt32.toNat_sub_of_le _ _ hle, hp, hindex]
        simp only [Held.fit, hnext, List.map_cons, Pointed.left, drop_eq_cons hread]
      next hhere =>
        -- The position that is left is not below the place either.
        have hkept := List.head?_dropWhile_not
          (fun p : Position => p.toNat < start.toNat + (index + 1)) (window.drop place)
        rw [← hleft, drop_eq_cons hread] at hkept
        have hge : ¬ p.toNat < start.toNat + (index + 1) := by simpa using hkept
        rw [← ih (by omega)]
        cases hold start (index + 1) later <;>
          simp only [Held.fit, List.map_cons, Pointed.left, drop_eq_cons hread]

/-- A window that has only later positions asks for a later start. -/
theorem fit_lt {start offset next : Nat} {windows others : List Window}
    (h : Window.fit start offset windows = .overshoot next others) : start < next := by
  fun_induction Window.fit start offset windows generalizing next others with
  | case1 | case2 | case4 | case6 => cases h
  | case3 offset window later p rest hleft hover =>
    cases h
    exact Nat.lt_sub_of_add_lt hover
  | case5 offset window later p rest hleft hhere next' others' hfit ih =>
    cases h
    exact ih hfit

/-- The same, by pointers. -/
theorem hold_lt {p : Position} {next : UInt32} {windows others : List Pointed}
    (h : hold p.toUInt32 0 windows = .overshoot next others) : p.toUInt32 < next := by
  have hlarge := p.toNat_lt
  have hreach : p.toUInt32.toNat + 0 ≤ 0xFFFF := by
    rw [UInt16.toNat_toUInt32]
    omega
  have hfit := hold_fit hreach windows
  rw [h] at hfit
  exact UInt32.lt_iff_toNat_lt.2 (fit_lt hfit.symm)

/-! ## All starts -/

/-- The starts among the positions of `first` from the pointer `lead` on, put behind those that are
    in the buffer, and whether there are any. -/
def collectFrom (first : Window) (lead : Nat) (windows : List Pointed) (buffer : Window) :
    Bool × Window :=
  match _hread : first[lead]? with
  | none => (!buffer.isEmpty, buffer)
  | some p =>
    match _hheld : hold p.toUInt32 0 windows with
    | .dry => (!buffer.isEmpty, buffer)
    | .aligned windows =>
      collectFrom first (lead + 1) windows (buffer ++ [p.toUInt32.toUInt16])
    | .overshoot next windows => collectFrom first (seek first next lead) windows buffer
termination_by first.length - lead
decreasing_by
  all_goals obtain ⟨hlead, -⟩ := List.getElem?_eq_some_iff.1 _hread
  · omega
  · have := lt_seek _hread (hold_lt _hheld)
    omega

/-- The starts of a phrase whose words have the given windows, put into a buffer, and whether there
    are any. What was in the buffer is dropped. -/
def collect (windows : List Window) (_buffer : Window) : Bool × Window :=
  match windows with
  | [] => (false, [])
  | first :: rest => collectFrom first 0 (rest.map fun window => ⟨window, 0⟩) []

/-- **The pointers lead to the starts that are found by taking positions off the windows.** -/
theorem collectFrom_eq (first : Window) (lead : Nat) (windows : List Pointed) (buffer : Window) :
    collectFrom first lead windows buffer
      = (!(buffer ++ alignedStarts (first.drop lead) (windows.map Pointed.left)).isEmpty,
        buffer ++ alignedStarts (first.drop lead) (windows.map Pointed.left)) := by
  have hfit (p : Position) (windows : List Pointed) :
      Window.fit p.toNat 1 (windows.map Pointed.left) = (hold p.toUInt32 0 windows).fit := by
    have hlarge := p.toNat_lt
    rw [hold_fit (by rw [UInt16.toNat_toUInt32]; omega), UInt16.toNat_toUInt32]
  fun_induction collectFrom first lead windows buffer with
  | case1 lead windows buffer hread =>
    rw [List.drop_eq_nil_of_le (List.getElem?_eq_none_iff.1 hread), alignedStarts, List.append_nil]
  | case2 lead windows buffer p hread hheld =>
    rw [drop_eq_cons hread, alignedStarts, hfit, hheld]
    simp only [Held.fit, List.append_nil]
  | case3 lead windows buffer p hread others hheld ih =>
    rw [ih, drop_eq_cons hread]
    conv_rhs => rw [alignedStarts, hfit, hheld]
    simp only [Held.fit, UInt16.toUInt16_toUInt32, List.append_assoc, List.singleton_append]
  | case4 lead windows buffer p hread next others hheld ih =>
    have hskip : (first.drop lead).dropWhile (fun q => q.toNat < next.toNat)
        = (first.drop (lead + 1)).dropWhile fun q => q.toNat < next.toNat := by
      rw [drop_eq_cons hread, List.dropWhile_cons_of_pos]
      have hlt := UInt32.lt_iff_toNat_lt.1 (hold_lt hheld)
      rw [UInt16.toNat_toUInt32] at hlt
      exact decide_eq_true hlt
    rw [ih, drop_seek, hskip, drop_eq_cons hread]
    conv_rhs => rw [alignedStarts, hfit, hheld]
    simp only [Held.fit]

theorem collect_eq (windows : List Window) (buffer : Window) :
    collect windows buffer = (!(alignments windows).isEmpty, alignments windows) := by
  cases windows with
  | nil => rfl
  | cons first rest =>
    have hleft : (rest.map fun window => Pointed.mk window 0).map Pointed.left = rest := by
      rw [List.map_map]
      exact List.map_id rest
    rw [collect, collectFrom_eq, hleft]
    rfl

/-- **The scan finds exactly the starts of a phrase.** Whatever is in the buffer before, afterwards
    it holds the positions of the first window from which every window has its next number,
    ascending, and the scan says whether there are any. Without windows there are none. -/
theorem collect_exact {windows : List Window}
    (h : ∀ window ∈ windows, window.Pairwise (· < ·)) (buffer : Window) :
    ∃ starts, collect windows buffer = (decide (starts ≠ []), starts) ∧
      starts = alignments windows ∧
      starts.Pairwise (· < ·) ∧
      ∀ p : Position, p ∈ starts ↔ windows ≠ [] ∧
        ∀ i, (hi : i < windows.length) → ∃ q ∈ windows[i], q.toNat = p.toNat + i := by
  have hlists : List.Forall₂ Lists windows (windows.map places) :=
    List.forall₂_map_right_iff.2 (List.forall₂_same.2 fun window hwindow => ⟨h window hwindow, rfl⟩)
  have hstarts := alignments_lists hlists
  refine ⟨alignments windows, ?_, rfl, hstarts.ascending, ?_⟩
  · rw [collect_eq]
    cases alignments windows <;> rfl
  · intro p
    rw [hstarts.mem_iff]
    simp only [Set.mem_ofPred_eq, ne_eq, List.map_eq_nil_iff, Consecutive, List.length_map,
      List.getElem_map, mem_places]

/-- The second window overshoots, so the first skips a position and goes on at `8`. -/
theorem collect_exact_catching_up :
    (∀ window ∈ ([[1, 2, 8], [5, 9], [10]] : List Window), window.Pairwise (· < ·)) ∧
      ∃ starts, collect [[1, 2, 8], [5, 9], [10]] [7] = (decide (starts ≠ []), starts) ∧
        starts = alignments [[1, 2, 8], [5, 9], [10]] ∧
        starts.Pairwise (· < ·) ∧
        ∀ p : Position, p ∈ starts ↔ ([[1, 2, 8], [5, 9], [10]] : List Window) ≠ [] ∧
          ∀ i, (hi : i < ([[1, 2, 8], [5, 9], [10]] : List Window).length) →
            ∃ q ∈ ([[1, 2, 8], [5, 9], [10]] : List Window)[i], q.toNat = p.toNat + i :=
  ⟨by decide, collect_exact (by decide) [7]⟩

end Window
end InvertedIndex
