import InvertedIndex.Proofs.Window
import InvertedIndex.Window.Alignment
import InvertedIndex.Window.Condition
import Mathlib.Data.Set.Card

/-!
# `Proofs.Window.Places` — windows as sets of positions

A strictly ascending window says no more than a set of positions does. Read that way, uniting windows
is union of sets, the starts of a phrase are the positions from which every set has its next number,
and a filter's conditions ask which positions there are, not in which order they come.

## Contents
- `Window.Lists`: an ascending window and the set that it lists;
- `Window.unite_lists`: common windows;
- `Consecutive`: one position of each set in a row; `Window.fit_tells`, `Window.alignments_lists`: the
  lock-step scan finds exactly these;
- `Condition.Met`, `Condition.holds_iff`: what the tests of a filter mean.
-/

namespace InvertedIndex
namespace Window

/-- The positions in a window. -/
def places (window : Window) : Set Position := {p | p ∈ window}

@[simp] theorem mem_places {window : Window} {p : Position} : p ∈ window.places ↔ p ∈ window :=
  Iff.rfl

/-- The window has the positions of the set, each once and in ascending order. -/
structure Lists (window : Window) (set : Set Position) : Prop where
  ascending : window.Pairwise (· < ·)
  places_eq : window.places = set

theorem Lists.mem_iff {window : Window} {set : Set Position} (h : Lists window set) {p : Position} :
    p ∈ window ↔ p ∈ set := by
  rw [← h.places_eq, mem_places]

theorem lists_nil : Lists [] ∅ := ⟨.nil, Set.eq_empty_of_forall_notMem fun _ => List.not_mem_nil⟩

/-- A set is listed in one way. -/
theorem Lists.unique {window window' : Window} {set : Set Position} (h : Lists window set)
    (h' : Lists window' set) : window = window' :=
  h.ascending.eq_of_mem_iff h'.ascending fun _ => h.mem_iff.trans h'.mem_iff.symm

theorem Lists.eq_nil_iff {window : Window} {set : Set Position} (h : Lists window set) :
    window = [] ↔ ¬ set.Nonempty := by
  rw [Set.not_nonempty_iff_eq_empty]
  constructor
  · rintro rfl
    rw [← h.places_eq, lists_nil.places_eq]
  · rintro rfl
    exact h.unique lists_nil

theorem map_places {windows : List Window} {sets : List (Set Position)}
    (h : List.Forall₂ Lists windows sets) : windows.map places = sets := by
  induction h with
  | nil => rfl
  | cons hlists _ ih => exact congrArg₂ List.cons hlists.places_eq ih

/-! ## Common windows -/

theorem mem_merge {left right : Window} {p : Position} :
    p ∈ merge left right ↔ p ∈ left ∨ p ∈ right := by
  fun_induction merge left right with
  | case1 right => simp
  | case2 left hne => simp
  | case3 a left b right hlt ih => grind
  | case4 a left b right hge hlt ih => grind
  | case5 a left b right hge hge' ih =>
    obtain rfl : a = b := UInt16.le_antisymm (UInt16.not_lt.1 hge') (UInt16.not_lt.1 hge)
    grind

theorem merge_ascending {left right : Window} (hleft : left.Pairwise (· < ·))
    (hright : right.Pairwise (· < ·)) : (merge left right).Pairwise (· < ·) := by
  fun_induction merge left right with
  | case1 right => exact hright
  | case2 left hne => exact hleft
  | case3 a left b right hlt ih =>
    obtain ⟨hfirst, hrest⟩ := List.pairwise_cons.1 hleft
    refine List.pairwise_cons.2 ⟨?_, ih hrest hright⟩
    intro p hp
    rcases mem_merge.1 hp with hp | hp
    · exact hfirst p hp
    · rcases List.mem_cons.1 hp with rfl | hp
      · exact hlt
      · exact UInt16.lt_trans hlt ((List.pairwise_cons.1 hright).1 p hp)
  | case4 a left b right hge hlt ih =>
    obtain ⟨hfirst, hrest⟩ := List.pairwise_cons.1 hright
    refine List.pairwise_cons.2 ⟨?_, ih hleft hrest⟩
    intro p hp
    rcases mem_merge.1 hp with hp | hp
    · rcases List.mem_cons.1 hp with rfl | hp
      · exact hlt
      · exact UInt16.lt_trans hlt ((List.pairwise_cons.1 hleft).1 p hp)
    · exact hfirst p hp
  | case5 a left b right hge hge' ih =>
    -- Both windows lead with the same position, which is taken from the left one.
    obtain rfl : a = b := UInt16.le_antisymm (UInt16.not_lt.1 hge') (UInt16.not_lt.1 hge)
    obtain ⟨hfirst, hrest⟩ := List.pairwise_cons.1 hleft
    obtain ⟨hfirst', hrest'⟩ := List.pairwise_cons.1 hright
    refine List.pairwise_cons.2 ⟨?_, ih hrest hrest'⟩
    intro p hp
    exact (mem_merge.1 hp).elim (hfirst p) (hfirst' p)

/-- **The common window lists the union**, whichever of the ways to unite is taken. -/
theorem unite_lists {windows : List Window} {sets : List (Set Position)}
    (h : List.Forall₂ Lists windows sets) : Lists (unite windows) {p | ∃ set ∈ sets, p ∈ set} := by
  match windows, sets, h with
  | [], [], .nil => exact ⟨.nil, by ext p; simp [unite]⟩
  | [window], [set], .cons hlists .nil =>
    refine ⟨hlists.ascending, ?_⟩
    ext p
    simp [unite, hlists.mem_iff]
  | [left, right], [set, set'], .cons hleft (.cons hright .nil) =>
    refine ⟨merge_ascending hleft.ascending hright.ascending, ?_⟩
    ext p
    simp [unite, mem_merge, hleft.mem_iff, hright.mem_iff]
  | a :: b :: c :: rest, sets, h =>
    refine ⟨ofPositions_ascending _, ?_⟩
    ext p
    rw [← map_places h]
    simp [unite]

end Window

/-! ## Consecutive positions -/

/-- The first set has the number `n`, the second `n + 1`, the third `n + 2`, and so on. -/
def Consecutive (n : Nat) (sets : List (Set Position)) : Prop :=
  ∀ i, (h : i < sets.length) → ∃ p ∈ sets[i], p.toNat = n + i

theorem consecutive_nil (n : Nat) : Consecutive n [] := nofun

theorem consecutive_cons {n : Nat} {set : Set Position} {rest : List (Set Position)} :
    Consecutive n (set :: rest) ↔ (∃ p ∈ set, p.toNat = n) ∧ Consecutive (n + 1) rest := by
  constructor
  · intro h
    refine ⟨h 0 (Nat.zero_lt_succ _), ?_⟩
    intro i hi
    obtain ⟨p, hp, heq⟩ := h (i + 1) (Nat.succ_lt_succ hi)
    exact ⟨p, hp, by omega⟩
  · rintro ⟨hfirst, hrest⟩ i hi
    cases i with
    | zero => exact hfirst
    | succ i =>
      obtain ⟨p, hp, heq⟩ := hrest i (Nat.lt_of_succ_lt_succ hi)
      exact ⟨p, hp, by omega⟩

namespace Window

/-- What lies below a bound comes first in an ascending window. -/
theorem mem_dropWhile {window : Window} (h : window.Pairwise (· < ·)) {bound : Nat} {p : Position} :
    p ∈ window.dropWhile (fun q => q.toNat < bound) ↔ p ∈ window ∧ bound ≤ p.toNat := by
  induction window with
  | nil => simp
  | cons a rest ih =>
    obtain ⟨hfirst, hrest⟩ := List.pairwise_cons.1 h
    by_cases ha : a.toNat < bound
    · simp only [List.dropWhile_cons, decide_eq_true ha, if_true, ih hrest]
      grind
    · simp only [List.dropWhile_cons, decide_eq_false ha, Bool.false_eq_true, if_false]
      refine (and_iff_left_of_imp ?_).symm
      intro hp
      rcases List.mem_cons.1 hp with rfl | hp
      · exact Nat.le_of_not_lt ha
      · have := UInt16.lt_iff_toNat_lt.1 (hfirst p hp)
        omega

/-- From a bound on, other windows do as well as the given ones, and they ascend. -/
structure Serves (bound : Nat) (windows others : List Window) : Prop where
  ascending : ∀ window ∈ others, window.Pairwise (· < ·)
  same : ∀ n ≥ bound, Consecutive n (others.map places) ↔ Consecutive n (windows.map places)

/-- What is left of a window from its place on serves if what is left of the others does. -/
theorem Serves.cons {bound : Nat} {window trimmed : Window} {windows others : List Window}
    (h : Serves (bound + 1) windows others) (hasc : window.Pairwise (· < ·))
    (htrimmed : window.dropWhile (fun q => q.toNat < bound) = trimmed) :
    Serves bound (window :: windows) (trimmed :: others) where
  ascending := by
    refine List.forall_mem_cons.2 ⟨?_, h.ascending⟩
    exact htrimmed ▸ hasc.sublist (List.dropWhile_sublist _)
  same := by
    intro n hn
    rw [List.map_cons, List.map_cons, consecutive_cons, consecutive_cons, h.same _ (by omega)]
    refine and_congr_left' (exists_congr fun p => and_congr_left ?_)
    rintro rfl
    rw [mem_places, mem_places, ← htrimmed, mem_dropWhile hasc]
    exact and_iff_left hn

theorem serves_refl {windows : List Window} (h : ∀ window ∈ windows, window.Pairwise (· < ·))
    (bound : Nat) : Serves bound windows windows := ⟨h, fun _ _ => Iff.rfl⟩

/-- What a fit tells: that the start fits, or from where on another may, or that none does any more. -/
def Fit.Tells (start offset : Nat) (windows : List Window) : Fit → Prop
  | .aligned others => Consecutive (start + offset) (windows.map places) ∧
      Serves (start + offset) windows others
  | .overshoot next others => start < next ∧
      (∀ n ≥ start, n < next → ¬ Consecutive (n + offset) (windows.map places)) ∧
      Serves (start + offset) windows others
  | .dry => ∀ n ≥ start, ¬ Consecutive (n + offset) (windows.map places)

/-- The first position left of an ascending window is the least from the bound on. -/
theorem dropWhile_least {window rest : Window} (h : window.Pairwise (· < ·)) {bound : Nat}
    {p : Position} (hleft : window.dropWhile (fun q => q.toNat < bound) = p :: rest) :
    (p ∈ window ∧ bound ≤ p.toNat) ∧ ∀ q ∈ window, bound ≤ q.toNat → p.toNat ≤ q.toNat := by
  constructor
  · rw [← mem_dropWhile h, hleft]
    exact List.mem_cons_self
  · intro q hq hbound
    have hq' := (mem_dropWhile h).2 ⟨hq, hbound⟩
    have hasc := h.sublist (List.dropWhile_sublist fun q => q.toNat < bound)
    rw [hleft] at hq' hasc
    rcases List.mem_cons.1 hq' with rfl | hq'
    · exact Nat.le_refl _
    · exact (UInt16.lt_iff_toNat_lt.1 ((List.pairwise_cons.1 hasc).1 q hq')).le

/-- **Holding a start against ascending windows tells the truth.** -/
theorem fit_tells {windows : List Window} (h : ∀ window ∈ windows, window.Pairwise (· < ·))
    (start offset : Nat) : Fit.Tells start offset windows (fit start offset windows) := by
  fun_induction fit start offset windows with
  | case1 offset => exact ⟨consecutive_nil _, serves_refl h _⟩
  | case2 offset window later hnone =>
    -- All positions of the window lie below the place for `start`.
    intro n hn hall
    obtain ⟨⟨p, hp, hplace⟩, -⟩ := consecutive_cons.1 hall
    have hleft := (mem_dropWhile (List.forall_mem_cons.1 h).1).2 ⟨hp, (by omega : start + offset ≤ _)⟩
    rw [hnone] at hleft
    cases hleft
  -- The first position left in this window asks for a later start.
  | case3 offset window later p rest hleft hover =>
    obtain ⟨hwindow, hlater⟩ := List.forall_mem_cons.1 h
    refine ⟨by omega, ?_, (serves_refl hlater _).cons hwindow hleft⟩
    intro n hn hnext hall
    obtain ⟨⟨q, hq, hplace⟩, -⟩ := consecutive_cons.1 hall
    have := (dropWhile_least hwindow hleft).2 q hq (by omega)
    omega
  | case4 offset window later p rest hleft hhere others hfit ih =>
    obtain ⟨hwindow, hlater⟩ := List.forall_mem_cons.1 h
    have hrest := ih hlater
    rw [hfit] at hrest
    obtain ⟨⟨hp, hbound⟩, -⟩ := dropWhile_least hwindow hleft
    exact ⟨consecutive_cons.2 ⟨⟨p, hp, by omega⟩, hrest.1⟩, hrest.2.cons hwindow hleft⟩
  -- A later window asks for it: what this one says is the same for all starts in between.
  | case5 offset window later p rest hleft hhere next others hfit ih =>
    obtain ⟨hwindow, hlater⟩ := List.forall_mem_cons.1 h
    have hrest := ih hlater
    rw [hfit] at hrest
    obtain ⟨hnext, hskip, hserves⟩ := hrest
    refine ⟨hnext, ?_, hserves.cons hwindow hleft⟩
    intro n hn hlt hall
    exact hskip n hn hlt (consecutive_cons.1 hall).2
  | case6 offset window later p rest hleft hhere hfit ih =>
    have hrest := ih (List.forall_mem_cons.1 h).2
    rw [hfit] at hrest
    intro n hn hall
    exact hrest n hn (consecutive_cons.1 hall).2

theorem alignedStarts_sublist (lead : Window) (later : List Window) :
    (alignedStarts lead later).Sublist lead := by
  fun_induction alignedStarts lead later with
  | case1 later => exact .slnil
  | case2 later p rest hfit => exact List.nil_sublist _
  | case3 later p rest others hfit ih => exact ih.cons_cons p
  | case4 later p rest next others hfit ih =>
    exact (ih.trans (List.dropWhile_sublist _)).cons p

theorem mem_alignedStarts {lead : Window} {later : List Window} (hlead : lead.Pairwise (· < ·))
    (hlater : ∀ window ∈ later, window.Pairwise (· < ·)) {q : Position} :
    q ∈ alignedStarts lead later
      ↔ q ∈ lead ∧ Consecutive (q.toNat + 1) (later.map places) := by
  fun_induction alignedStarts lead later with
  | case1 later => simp
  -- A window has run out, so no start fits any more.
  | case2 later p rest hfit =>
    have hspec := fit_tells hlater p.toNat 1
    rw [hfit] at hspec
    refine ⟨nofun, ?_⟩
    rintro ⟨hq, hall⟩
    rcases List.mem_cons.1 hq with rfl | hq
    · exact absurd hall (hspec _ (Nat.le_refl _))
    · have hlt := UInt16.lt_iff_toNat_lt.1 ((List.pairwise_cons.1 hlead).1 q hq)
      exact absurd hall (hspec _ hlt.le)
  | case3 later p rest others hfit ih =>
    have hspec := fit_tells hlater p.toNat 1
    rw [hfit] at hspec
    obtain ⟨hfirst, hrest⟩ := List.pairwise_cons.1 hlead
    rw [List.mem_cons, List.mem_cons, ih hrest hspec.2.ascending, or_and_right]
    refine or_congr ?_ (and_congr_right ?_)
    · refine (and_iff_left_of_imp ?_).symm
      rintro rfl
      exact hspec.1
    · intro hq
      have hlt := UInt16.lt_iff_toNat_lt.1 (hfirst q hq)
      exact hspec.2.same _ (by omega)
  | case4 later p rest next others hfit ih =>
    have hspec := fit_tells hlater p.toNat 1
    rw [hfit] at hspec
    obtain ⟨hnext, hskip, hserves⟩ := hspec
    obtain ⟨hfirst, hrest⟩ := List.pairwise_cons.1 hlead
    have hleft := hrest.sublist (List.dropWhile_sublist fun q => q.toNat < next)
    rw [ih hleft hserves.ascending, mem_dropWhile hrest, List.mem_cons]
    -- No start below `next` fits, `p` itself included.
    constructor
    · rintro ⟨⟨hq, hle⟩, hall⟩
      exact ⟨.inr hq, (hserves.same _ (by omega)).1 hall⟩
    · rintro ⟨hq, hall⟩
      have hge : p.toNat ≤ q.toNat := by
        rcases hq with rfl | hq
        · exact Nat.le_refl _
        · exact (UInt16.lt_iff_toNat_lt.1 (hfirst q hq)).le
      have hle : next ≤ q.toNat := by
        by_contra hlt
        exact hskip q.toNat hge (by omega) hall
      have hq' : q ∈ rest := by
        rcases hq with rfl | hq
        · omega
        · exact hq
      exact ⟨⟨hq', hle⟩, (hserves.same _ (by omega)).2 hall⟩

/-- **The scan lists exactly the starts of the phrase.** -/
theorem alignments_lists {windows : List Window} {sets : List (Set Position)}
    (h : List.Forall₂ Lists windows sets) :
    Lists (alignments windows) {p | sets ≠ [] ∧ Consecutive p.toNat sets} := by
  cases h with
  | nil => exact ⟨.nil, by ext p; simp [alignments]⟩
  | @cons lead set later sets hlead hlater =>
    refine ⟨hlead.ascending.sublist (alignedStarts_sublist lead later), ?_⟩
    have hasc : ∀ window ∈ later, window.Pairwise (· < ·) := by
      intro window hwindow
      obtain ⟨i, hi, rfl⟩ := List.getElem_of_mem hwindow
      exact (hlater.get hi (hlater.length_eq ▸ hi)).ascending
    ext p
    rw [mem_places, alignments, mem_alignedStarts hlead.ascending hasc, map_places hlater,
      hlead.mem_iff, Set.mem_ofPred_eq, and_iff_right (List.cons_ne_nil _ _), consecutive_cons]
    refine and_congr_left' ?_
    constructor
    · intro hp
      exact ⟨p, hp, rfl⟩
    · rintro ⟨q, hq, heq⟩
      rwa [← UInt16.toNat_inj.1 heq]

end Window

/-! ## Conditions -/

/-- What a condition asks of the positions of a match. -/
def Condition.Met (places : Set Position) : Condition → Prop
  | .minPosition bound => ∃ p ∈ places, bound ≤ p
  | .maxPosition bound => ∃ p ∈ places, p ≤ bound
  | .position place => place ∈ places
  | .positionRange low high => ∃ p ∈ places, low ≤ p ∧ p ≤ high
  | .minCount n => n ≤ places.ncard
  | .maxCount n => places.ncard ≤ n
  | .count n => places.ncard = n
  | .countRange low high => low ≤ places.ncard ∧ places.ncard ≤ high

namespace Window

theorem Lists.ncard {window : Window} {set : Set Position} (h : Lists window set) :
    set.ncard = window.length := by
  have hnodup : window.Nodup := h.ascending.imp UInt16.ne_of_lt
  have hset : set = (window.toFinset : Set Position) := by
    ext p
    rw [List.coe_toFinset, Set.mem_ofPred_eq, h.mem_iff]
  rw [hset, Set.ncard_coe_finset, List.toFinset_card_of_nodup hnodup]

/-- An ascending window reaches a bound if its last position does. -/
theorem Lists.getLast {window : Window} {set : Set Position} (h : Lists window set)
    {bound : Position} : window.getLast?.any (bound ≤ ·) ↔ ∃ p ∈ set, bound ≤ p := by
  rw [Option.any_eq_true]
  simp only [← h.mem_iff, decide_eq_true_eq]
  constructor
  · rintro ⟨p, hp, hbound⟩
    exact ⟨p, List.mem_of_getLast? hp, hbound⟩
  · rintro ⟨p, hp, hbound⟩
    obtain ⟨before, last, rfl⟩ := List.eq_nil_or_concat window |>.resolve_left (List.ne_nil_of_mem hp)
    refine ⟨last, by simp, ?_⟩
    rcases List.mem_append.1 (List.concat_eq_append ▸ hp) with hbefore | hlast
    · have hasc := h.ascending
      rw [List.concat_eq_append, List.pairwise_append] at hasc
      exact UInt16.le_trans hbound (UInt16.le_of_lt (hasc.2.2 p hbefore last List.mem_cons_self))
    · rwa [← List.mem_singleton.1 hlast]

/-- The first position of an ascending window is the least. -/
theorem head_any {window : Window} (h : window.Pairwise (· < ·)) {bound : Position} :
    window.head?.any (· ≤ bound) ↔ ∃ p ∈ window, p ≤ bound := by
  cases window with
  | nil => simp
  | cons first rest =>
    simp only [List.head?_cons, Option.any_some, decide_eq_true_eq]
    constructor
    · intro hle
      exact ⟨first, List.mem_cons_self, hle⟩
    · rintro ⟨p, hp, hle⟩
      rcases List.mem_cons.1 hp with rfl | hp
      · exact hle
      · exact UInt16.le_trans (UInt16.le_of_lt ((List.pairwise_cons.1 h).1 p hp)) hle

end Window

/-- **A window passes a condition if its positions meet it.** -/
theorem Condition.holds_iff {window : Window} {places : Set Position}
    (h : window.Lists places) (c : Condition) : c.holds window ↔ c.Met places := by
  cases c with
  | minPosition bound => exact h.getLast
  | maxPosition bound =>
    refine (Window.head_any h.ascending).trans ?_
    simp only [h.mem_iff, Met]
  | position place =>
    simp only [holds, Met, List.contains_iff_mem, h.mem_iff]
  | positionRange low high =>
    have hasc := h.ascending.sublist (List.dropWhile_sublist fun p => decide (p < low))
    refine (Window.head_any hasc).trans ?_
    simp only [UInt16.lt_iff_toNat_lt, Window.mem_dropWhile h.ascending, h.mem_iff, Met,
      ← UInt16.le_iff_toNat_le, and_assoc]
  | minCount n | maxCount n | count n | countRange low high =>
    simp only [holds, Met, h.ncard, decide_eq_true_eq]

end InvertedIndex
