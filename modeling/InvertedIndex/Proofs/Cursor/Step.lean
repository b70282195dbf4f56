import InvertedIndex.Cursor.Step
import InvertedIndex.Proofs.Cursor.Settle

/-!
# `Proofs.Cursor.Step` — one move of a composed cursor

A move that rests changes nothing; of any other, each kind of cursor has its own equation. Whatever
a move does below, the tree keeps its shape, and so the height that bounds the recursion.

## Contents
- `moveWithin_inter`, `moveWithin_union`, …: moves that do not rest;
- `moveWithin_inter_rests`, …: moves that do;
- `height_moveWithin`, `moves_eq`: moves keep the height of the tree;
- `moveWithin_eq_move`: the bound on the height does not matter.
-/

namespace InvertedIndex
namespace Cursor

variable {L : Type}

/-! ## Heights -/

theorem heights_eq {subs subs' : List (Cursor L)} (h : subs'.map height = subs.map height) :
    height.heights subs' = height.heights subs := by
  induction subs generalizing subs' with
  | nil => rw [List.map_eq_nil_iff.1 h]
  | cons c rest ih =>
    cases subs' with
    | nil => cases h
    | cons c' rest' =>
      obtain ⟨hc, hrest⟩ := List.cons.inj h
      show max c'.height _ = max c.height _
      rw [hc, ih hrest]

/-- A leader and other cursors with the heights of the given ones. -/
def SameHeights (c : Cursor L) (others : List (Cursor L)) (s : Cursor L × List (Cursor L)) : Prop :=
  s.1.height = c.height ∧ s.2.map height = others.map height

theorem SameHeights.heights {c : Cursor L} {others : List (Cursor L)}
    {s : Cursor L × List (Cursor L)} (h : SameHeights c others s) :
    height.heights (s.1 :: s.2) = height.heights (c :: others) :=
  congrArg₂ max h.1 (heights_eq h.2)

theorem seekAll_height {current : Cursor L → DocId} {seek : DocId → Cursor L → Cursor L}
    (hseek : ∀ id c, (seek id c).height = c.height) (id : DocId) (subs : List (Cursor L)) :
    (seekAll current seek id subs).1.map height = subs.map height := by
  induction subs with
  | nil => rfl
  | cons c rest ih =>
    unfold seekAll
    by_cases hhere : current (seek id c) = id
    · simp only [if_pos hhere, List.map_cons, hseek, ih]
    · simp only [if_neg hhere, List.map_cons, hseek]

theorem align_height {current : Cursor L → DocId} {seek : DocId → Cursor L → Cursor L}
    (hseek : ∀ id c, (seek id c).height = c.height) {c : Cursor L} {others : List (Cursor L)}
    {s : Cursor L × List (Cursor L)} (h : SameHeights c others s) :
    SameHeights c others (align current seek s).1 := by
  refine settle_keeps (SameHeights c others) ?_ h
  rintro ⟨c', others'⟩ ⟨hlead, hothers⟩
  have hsought : (seekAll current seek (current c') others').1.map height = others.map height :=
    (seekAll_height hseek _ _).trans hothers
  simp only
  split
  · exact ⟨hlead, hsought⟩
  · exact ⟨(hseek _ _).trans hlead, hsought⟩

variable [IdStream L] {n : Nat} {m : Move}

/-! ## Moves that do not rest -/

theorem moveWithin_inter {lead : Cursor L} {others : List (Cursor L)} {phase : Phase}
    (hrest : ¬ m.rests phase.current) (hspent : phase ≠ .spent) :
    moveWithin (n + 1) m (.inter (lead :: others) phase)
      = let ((c, cs), id) := align current (fun target => moveWithin n (.seek target))
          (moveWithin n m lead, others)
        .inter (c :: cs) (.ofId id) := by
  cases phase with
  | spent => exact absurd rfl hspent
  | fresh => exact if_neg hrest
  | hit id => exact if_neg hrest

theorem moveWithin_union {kind : UnionKind} {subs : List (Cursor L)} {phase : Phase}
    (hrest : ¬ m.rests phase.current) (hspent : phase ≠ .spent) :
    moveWithin (n + 1) m (.union kind subs phase)
      = let subs := subs.map fun c => if joins phase m c.current then moveWithin n m c else c
        .union kind subs (.ofId (leastId (subs.map current))) := by
  cases phase with
  | spent => exact absurd rfl hspent
  | fresh => exact if_neg hrest
  | hit id => exact if_neg hrest

theorem moveWithin_diff {kept dropped : Cursor L} (hrest : ¬ m.rests kept.current) :
    moveWithin (n + 1) m (.diff kept dropped)
      = let ((k, d), _) := settle (fun s => s.1.current) (attemptDiff (moveWithin n))
          (moveWithin n m kept, dropped)
        .diff k d := if_neg hrest

theorem moveWithin_phrase {lead : Cursor L} {others : List (Cursor L)} {phase : Phase}
    (hrest : ¬ m.rests phase.current) (hspent : phase ≠ .spent) :
    moveWithin (n + 1) m (.phrase (lead :: others) phase)
      = let (((c, cs), _), id) := settle Prod.snd (attemptPhrase (moveWithin n))
          (align current (fun target => moveWithin n (.seek target))
            (moveWithin n m lead, others))
        .phrase (c :: cs) (.ofId id) := by
  cases phase with
  | spent => exact absurd rfl hspent
  | fresh => exact if_neg hrest
  | hit id => exact if_neg hrest

theorem moveWithin_filter {inner : Cursor L} {conditions : List Condition}
    (hrest : ¬ m.rests inner.current) :
    moveWithin (n + 1) m (.filter inner conditions)
      = .filter (settle current (attemptFilter (moveWithin n) conditions) (moveWithin n m inner)).1
          conditions := if_neg hrest

/-! ## Moves that rest -/

theorem moveWithin_inter_rests {subs : List (Cursor L)} {phase : Phase}
    (h : m.rests phase.current ∨ phase = .spent) :
    moveWithin (n + 1) m (.inter subs phase) = .inter subs phase := by
  rcases h with h | rfl
  · exact if_pos h
  · cases subs <;> exact if_neg (IdList.rests_zero m)

theorem moveWithin_union_rests {kind : UnionKind} {subs : List (Cursor L)} {phase : Phase}
    (h : m.rests phase.current ∨ phase = .spent) :
    moveWithin (n + 1) m (.union kind subs phase) = .union kind subs phase := by
  rcases h with h | rfl
  · exact if_pos h
  · exact if_neg (IdList.rests_zero m)

theorem moveWithin_phrase_rests {subs : List (Cursor L)} {phase : Phase}
    (h : m.rests phase.current ∨ phase = .spent) :
    moveWithin (n + 1) m (.phrase subs phase) = .phrase subs phase := by
  rcases h with h | rfl
  · exact if_pos h
  · cases subs <;> exact if_neg (IdList.rests_zero m)

/-- A composed cursor without parts makes no move that matters. -/
theorem moveWithin_inter_nil (phase : Phase) :
    moveWithin (n + 1) m (.inter ([] : List (Cursor L)) phase)
      = .inter [] (if m.rests phase.current then phase else .spent) := by
  unfold moveWithin
  split <;> rfl

theorem moveWithin_phrase_nil (phase : Phase) :
    moveWithin (n + 1) m (.phrase ([] : List (Cursor L)) phase)
      = .phrase [] (if m.rests phase.current then phase else .spent) := by
  unfold moveWithin
  split <;> rfl

theorem moveWithin_diff_rests {kept dropped : Cursor L} (hrest : m.rests kept.current) :
    moveWithin (n + 1) m (.diff kept dropped) = .diff kept dropped := if_pos hrest

theorem moveWithin_filter_rests {inner : Cursor L} {conditions : List Condition}
    (hrest : m.rests inner.current) :
    moveWithin (n + 1) m (.filter inner conditions) = .filter inner conditions := if_pos hrest

/-! ## The shape of the tree -/

section Attempts

variable (hmove : ∀ m (c : Cursor L), (moveWithin n m c).height = c.height)

include hmove

/-- Trying the candidates of a difference keeps the heights of both sides. -/
theorem settleDiff_height (kept dropped : Cursor L) :
    let s := (settle (fun s => s.1.current) (attemptDiff (moveWithin n)) (kept, dropped)).1
    s.1.height = kept.height ∧ s.2.height = dropped.height := by
  refine settle_keeps (fun s : Cursor L × Cursor L =>
    s.1.height = kept.height ∧ s.2.height = dropped.height) ?_ ⟨rfl, rfl⟩
  rintro ⟨k, d⟩ ⟨hk, hd⟩
  simp only [attemptDiff]
  split
  · exact ⟨(hmove _ _).trans hk, (hmove _ _).trans hd⟩
  · exact ⟨hk, (hmove _ _).trans hd⟩

/-- Trying the candidates of a phrase keeps the heights of all its parts. -/
theorem settlePhrase_height {lead : Cursor L} {others : List (Cursor L)}
    {s : (Cursor L × List (Cursor L)) × DocId} (h : SameHeights lead others s.1) :
    SameHeights lead others (settle Prod.snd (attemptPhrase (moveWithin n)) s).1.1 := by
  refine settle_keeps (fun s : (Cursor L × List (Cursor L)) × DocId =>
    SameHeights lead others s.1) ?_ h
  rintro ⟨⟨c, cs⟩, id⟩ hs
  simp only [attemptPhrase]
  split
  · exact align_height (fun id c => hmove (.seek id) c) ⟨(hmove .next c).trans hs.1, hs.2⟩
  · exact hs

/-- Trying the candidates of a filter keeps the height below it. -/
theorem settleFilter_height (conditions : List Condition) (inner : Cursor L) :
    (settle current (attemptFilter (moveWithin n) conditions) inner).1.height = inner.height := by
  refine settle_keeps (fun c : Cursor L => c.height = inner.height) ?_ rfl
  intro c hc
  unfold attemptFilter
  split
  · exact hc
  · exact (hmove .next c).trans hc

end Attempts

/-- Moves keep the height of the tree. -/
theorem height_moveWithin (n : Nat) (m : Move) (c : Cursor L) :
    (moveWithin n m c).height = c.height := by
  induction n generalizing m c with
  | zero => rfl
  | succ n ih =>
    -- Both kinds that align a leader keep the heights of all parts.
    have hlead (lead : Cursor L) (others : List (Cursor L)) :
        SameHeights lead others (align current (fun target => moveWithin n (.seek target))
          (moveWithin n m lead, others)).1 :=
      align_height (fun id c => ih (.seek id) c) ⟨ih m lead, rfl⟩
    cases c with
    | empty | leaf | range | single => rfl
    | inter subs phase =>
      by_cases h : m.rests phase.current ∨ phase = .spent
      · rw [moveWithin_inter_rests h]
      · obtain ⟨hrest, hspent⟩ := not_or.1 h
        cases subs with
        | nil =>
          rw [moveWithin_inter_nil]
          rfl
        | cons lead others =>
          rw [moveWithin_inter hrest hspent]
          exact congrArg (· + 1) (hlead lead others).heights
    | union kind subs phase =>
      by_cases h : m.rests phase.current ∨ phase = .spent
      · rw [moveWithin_union_rests h]
      · obtain ⟨hrest, hspent⟩ := not_or.1 h
        rw [moveWithin_union hrest hspent]
        refine congrArg (· + 1) (heights_eq ?_)
        rw [List.map_map]
        refine List.map_congr_left ?_
        intro c _
        show height (ite _ _ _) = _
        split
        · exact ih m c
        · rfl
    | diff kept dropped =>
      by_cases hrest : m.rests kept.current
      · rw [moveWithin_diff_rests hrest]
      · rw [moveWithin_diff hrest]
        obtain ⟨hkept, hdropped⟩ := settleDiff_height ih (moveWithin n m kept) dropped
        exact congrArg (· + 1) (congrArg₂ max (hkept.trans (ih m kept)) hdropped)
    | phrase subs phase =>
      by_cases h : m.rests phase.current ∨ phase = .spent
      · rw [moveWithin_phrase_rests h]
      · obtain ⟨hrest, hspent⟩ := not_or.1 h
        cases subs with
        | nil =>
          rw [moveWithin_phrase_nil]
          rfl
        | cons lead others =>
          rw [moveWithin_phrase hrest hspent]
          exact congrArg (· + 1) (settlePhrase_height ih (hlead lead others)).heights
    | filter inner conditions =>
      by_cases hrest : m.rests inner.current
      · rw [moveWithin_filter_rests hrest]
      · rw [moveWithin_filter hrest]
        exact congrArg (· + 1) ((settleFilter_height ih conditions _).trans (ih m inner))

/-! ## Larger bounds on the height -/

theorem align_moves_height (n : Nat) {c : Cursor L} {others : List (Cursor L)}
    {s : Cursor L × List (Cursor L)} (h : SameHeights c others s) :
    SameHeights c others (align current (fun target => moveWithin n (.seek target)) s).1 :=
  align_height (fun id c => height_moveWithin n (.seek id) c) h

omit [IdStream L] in
theorem heights_le {subs : List (Cursor L)} : height.heights subs ≤ n ↔ ∀ c ∈ subs, c.height ≤ n := by
  induction subs with
  | nil => exact ⟨fun _ => nofun, fun _ => Nat.zero_le n⟩
  | cons c rest ih => rw [List.forall_mem_cons, ← ih, ← Nat.max_le, height.heights]

omit [IdStream L] in
/-- Every cursor counts as a node. -/
theorem height_pos (c : Cursor L) : 0 < c.height := by
  cases c <;> exact Nat.succ_pos _

section Bounds

variable (hbound : ∀ m (c : Cursor L), c.height ≤ n → moveWithin (n + 1) m c = moveWithin n m c)

include hbound

theorem align_bound {s : Cursor L × List (Cursor L)} (h : height.heights (s.1 :: s.2) ≤ n) :
    align current (fun target => moveWithin (n + 1) (.seek target)) s
      = align current (fun target => moveWithin n (.seek target)) s := by
  refine settle_congr (SameHeights s.1 s.2) ?_ ?_ ⟨rfl, rfl⟩
  · rintro ⟨c, cs⟩ hs
    rw [← hs.heights] at h
    obtain ⟨hlead, hothers⟩ := List.forall_mem_cons.1 (heights_le.1 h)
    have hsought : seekAll current (fun target => moveWithin (n + 1) (.seek target)) c.current cs
        = seekAll current (fun target => moveWithin n (.seek target)) c.current cs :=
      seekAll_congr fun c hc => hbound _ c (hothers c hc)
    simp only [hsought, hbound _ c hlead]
  · rintro ⟨c, cs⟩ ⟨hlead, hothers⟩
    have hsought : (seekAll current (fun target => moveWithin (n + 1) (.seek target)) c.current
        cs).1.map height = s.2.map height :=
      (seekAll_height (fun id c => height_moveWithin (n + 1) (.seek id) c) _ _).trans hothers
    simp only
    split
    · exact ⟨hlead, hsought⟩
    · exact ⟨(height_moveWithin _ _ _).trans hlead, hsought⟩

theorem settlePhrase_bound {s : (Cursor L × List (Cursor L)) × DocId}
    (h : height.heights (s.1.1 :: s.1.2) ≤ n) :
    settle Prod.snd (attemptPhrase (moveWithin (n + 1))) s
      = settle Prod.snd (attemptPhrase (moveWithin n)) s := by
  refine settle_congr (fun s' => SameHeights s.1.1 s.1.2 s'.1) ?_ ?_ ⟨rfl, rfl⟩
  · rintro ⟨⟨c, cs⟩, id⟩ hs
    rw [← hs.heights] at h
    have hlead := (heights_le.1 h) c List.mem_cons_self
    have hnext : height.heights (moveWithin n .next c :: cs) ≤ n := by
      refine heights_le.2 (List.forall_mem_cons.2 ⟨?_, (List.forall_mem_cons.1 (heights_le.1 h)).2⟩)
      rwa [height_moveWithin]
    simp only [attemptPhrase, hbound _ c hlead, align_bound hbound (s := (_, cs)) hnext]
  · rintro ⟨⟨c, cs⟩, id⟩ hs
    simp only [attemptPhrase]
    split
    · exact align_moves_height _ ⟨(height_moveWithin _ .next c).trans hs.1, hs.2⟩
    · exact hs

theorem settleDiff_bound {s : Cursor L × Cursor L} (h : max s.1.height s.2.height ≤ n) :
    settle (fun s => s.1.current) (attemptDiff (moveWithin (n + 1))) s
      = settle (fun s => s.1.current) (attemptDiff (moveWithin n)) s := by
  refine settle_congr (fun s => max s.1.height s.2.height ≤ n) ?_ ?_ h
  · rintro ⟨k, d⟩ hs
    obtain ⟨hk, hd⟩ := Nat.max_le.1 hs
    simp only [attemptDiff, hbound _ k hk, hbound _ d hd]
  · rintro ⟨k, d⟩ hs
    simp only [attemptDiff]
    split
    · simpa only [Attempt.state, height_moveWithin] using hs
    · simpa only [Attempt.state, height_moveWithin] using hs

theorem settleFilter_bound {conditions : List Condition} {c : Cursor L} (h : c.height ≤ n) :
    settle current (attemptFilter (moveWithin (n + 1)) conditions) c
      = settle current (attemptFilter (moveWithin n) conditions) c := by
  refine settle_congr (fun c => c.height ≤ n) ?_ ?_ h
  · intro c hc
    simp only [attemptFilter, hbound _ c hc]
  · intro c hc
    unfold attemptFilter
    split
    · exact hc
    · exact (height_moveWithin _ _ _).trans_le hc

end Bounds

theorem moveWithin_succ (m : Move) (c : Cursor L) (h : c.height ≤ n) :
    moveWithin (n + 1) m c = moveWithin n m c := by
  -- Each part is lower than the whole, so one less suffices for it on both sides.
  induction n generalizing m c with
  | zero => exact absurd h (Nat.not_le.2 c.height_pos)
  | succ n ih =>
    cases c with
    | empty | leaf | range | single => rfl
    | inter subs phase =>
      by_cases hstays : m.rests phase.current ∨ phase = .spent
      · rw [moveWithin_inter_rests hstays, moveWithin_inter_rests hstays]
      · obtain ⟨hrest, hspent⟩ := not_or.1 hstays
        cases subs with
        | nil => rw [moveWithin_inter_nil, moveWithin_inter_nil]
        | cons lead others =>
          obtain ⟨hlead, hothers⟩ := Nat.max_le.1 (Nat.le_of_succ_le_succ h)
          have hmoved : height.heights (moveWithin n m lead :: others) ≤ n :=
            Nat.max_le.2 ⟨(height_moveWithin n m lead).trans_le hlead, hothers⟩
          rw [moveWithin_inter hrest hspent, moveWithin_inter hrest hspent, ih m lead hlead,
            align_bound ih hmoved]
    | union kind subs phase =>
      by_cases hstays : m.rests phase.current ∨ phase = .spent
      · rw [moveWithin_union_rests hstays, moveWithin_union_rests hstays]
      · obtain ⟨hrest, hspent⟩ := not_or.1 hstays
        have hsubs := heights_le.1 (Nat.le_of_succ_le_succ h)
        have hsame : (subs.map fun c => if joins phase m c.current then moveWithin (n + 1) m c else c)
            = subs.map fun c => if joins phase m c.current then moveWithin n m c else c := by
          refine List.map_congr_left ?_
          intro c hc
          rw [ih m c (hsubs c hc)]
        rw [moveWithin_union hrest hspent, moveWithin_union hrest hspent, hsame]
    | diff kept dropped =>
      by_cases hrest : m.rests kept.current
      · rw [moveWithin_diff_rests hrest, moveWithin_diff_rests hrest]
      · have hmax := Nat.le_of_succ_le_succ h
        have hkept := (Nat.max_le.1 hmax).1
        have hmoved : max (moveWithin n m kept).height dropped.height ≤ n := by
          rwa [height_moveWithin]
        rw [moveWithin_diff hrest, moveWithin_diff hrest, ih m kept hkept,
          settleDiff_bound ih (s := (_, dropped)) hmoved]
    | phrase subs phase =>
      by_cases hstays : m.rests phase.current ∨ phase = .spent
      · rw [moveWithin_phrase_rests hstays, moveWithin_phrase_rests hstays]
      · obtain ⟨hrest, hspent⟩ := not_or.1 hstays
        cases subs with
        | nil => rw [moveWithin_phrase_nil, moveWithin_phrase_nil]
        | cons lead others =>
          obtain ⟨hlead, hothers⟩ := Nat.max_le.1 (Nat.le_of_succ_le_succ h)
          have hmoved : height.heights (moveWithin n m lead :: others) ≤ n :=
            Nat.max_le.2 ⟨(height_moveWithin n m lead).trans_le hlead, hothers⟩
          have haligned := (align_moves_height n (s := (moveWithin n m lead, others))
            ⟨rfl, rfl⟩).heights.trans_le hmoved
          rw [moveWithin_phrase hrest hspent, moveWithin_phrase hrest hspent, ih m lead hlead,
            align_bound ih hmoved, settlePhrase_bound ih haligned]
    | filter inner conditions =>
      by_cases hrest : m.rests inner.current
      · rw [moveWithin_filter_rests hrest, moveWithin_filter_rests hrest]
      · have hinner : inner.height ≤ n := Nat.le_of_succ_le_succ h
        rw [moveWithin_filter hrest, moveWithin_filter hrest, ih m inner hinner,
          settleFilter_bound ih ((height_moveWithin n m inner).trans_le hinner)]

/-- **Any bound on the height serves**: a move does the same under all of them. -/
theorem moveWithin_eq_move (m : Move) {c : Cursor L} (h : c.height ≤ n) :
    moveWithin n m c = IdStream.move m c := by
  have hmove : IdStream.move m c = moveWithin c.height m c := by cases m <;> rfl
  induction n, h using Nat.le_induction with
  | base => exact hmove.symm
  | succ n hle ih => rw [moveWithin_succ m c hle, ih]

/-- Bounds on the height that serve for the first move serve for all. -/
theorem moves_eq (ms : List Move) (c : Cursor L) :
    moves IdStream.move ms c = moves (moveWithin c.height) ms c := by
  induction ms generalizing c with
  | nil => rfl
  | cons m ms ih =>
    have hmove : IdStream.move m c = moveWithin c.height m c := by cases m <;> rfl
    have htail := ih (moveWithin c.height m c)
    rw [height_moveWithin] at htail
    show moves IdStream.move ms (IdStream.move m c) = _
    rw [hmove, htail]
    rfl

end Cursor
end InvertedIndex
