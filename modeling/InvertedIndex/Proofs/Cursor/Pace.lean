import InvertedIndex.Proofs.Cursor.Reference
import Mathlib.Data.List.Induction

/-!
# `Proofs.Cursor.Pace` — seeking against walking there

A stream over stored postings seeks by skipping whole groups. What it must not do is end up anywhere
else than the stream that goes there step by step. Two states need not be equal for that: a group
that was skipped and one that was read to its end are different remainders. They have to be
**indistinct**, that is, show the same now and after any further moves.

The argument is made once, for streams that read items off a **tape**: `next` takes the first item
ahead, `seek` the first at or after the target. Walks over postings are such streams.

## Contents
- `Paces`: where repeated steps lead; `Indistinct`: states that show the same;
- `SeeksAsPaced`: a seek is as good as the steps;
- `Tape`: streams that read items off a list; `Tape.here_moves`, `Tape.drain_eq`,
  `Tape.indistinct`, `Tape.paces`;
- `Tape.seeksAsPaced`: they seek as paced.
-/

namespace InvertedIndex

section Streams

variable {S V : Type} [IdStream S]

/-- `Paces target s t`: from `s`, at least one step and then more, as long as the stream stands on
    an id below the target, lead to `t`. -/
inductive Paces (target : DocId) : S → S → Prop
  | arrive {s : S} (h : IdStream.current (IdStream.next s) = 0 ∨
      target ≤ IdStream.current (IdStream.next s)) : Paces target s (IdStream.next s)
  | step {s t : S} (hid : IdStream.current (IdStream.next s) ≠ 0)
      (hlow : IdStream.current (IdStream.next s) < target)
      (h : Paces target (IdStream.next s) t) : Paces target s t

/-- Two states show the same, now and after any further moves. -/
def Indistinct (view : S → V) (s t : S) : Prop :=
  ∀ ms, view (moves IdStream.move ms s) = view (moves IdStream.move ms t)

/-- After any moves a seek leaves a stream indistinct from what steps would have made of it: no step
    at all if it is past its last id or already at the target, and otherwise the steps up to the
    first id at or after the target. -/
def SeeksAsPaced (view : S → V) (start : S) : Prop :=
  ∀ ms target, let s := moves IdStream.move ms start
    if (ms ≠ [] ∧ IdStream.current s = 0) ∨ (IdStream.current s ≠ 0 ∧ target ≤ IdStream.current s)
    then Indistinct view (IdStream.seek target s) s
    else ∃ t, Paces target s t ∧ Indistinct view (IdStream.seek target s) t

/-- Less of the view shows no difference either. -/
theorem SeeksAsPaced.of_view {W : Type} {view : S → V} {view' : S → W} {start : S}
    (h : SeeksAsPaced view start) {f : V → W} (hf : ∀ s, view' s = f (view s)) :
    SeeksAsPaced view' start := by
  have hless {s t : S} (hst : Indistinct view s t) : Indistinct view' s t := by
    intro ms
    rw [hf, hf, hst ms]
  intro ms target s
  have hseek := h ms target
  split
  next hstays =>
    rw [if_pos hstays] at hseek
    exact hless hseek
  next hmoves =>
    rw [if_neg hmoves] at hseek
    obtain ⟨t, hpaces, hst⟩ := hseek
    exact ⟨t, hpaces, hless hst⟩

end Streams

/-- Streams that read items off a list. -/
structure Tape (S A : Type) [IdStream S] where
  id : A → DocId
  /-- The item stood on. -/
  here : S → Option A
  /-- The stream has just these items ahead. -/
  Ahead : S → List A → Prop
  current_eq : ∀ s, IdStream.current s = ((here s).map id).getD 0
  above : ∀ {s : S} {items : List A}, Ahead s items → ∀ a ∈ items, IdStream.current s < id a
  next : ∀ {s : S} {items : List A}, Ahead s items →
    here (IdStream.next s) = items.head? ∧ Ahead (IdStream.next s) items.tail
  rests : ∀ {s : S} {target : DocId}, (Move.seek target).rests (IdStream.current s) →
    IdStream.seek target s = s
  seek : ∀ {s : S} {items : List A} {target : DocId}, Ahead s items →
    ¬ (Move.seek target).rests (IdStream.current s) →
    let left := items.dropWhile fun a => id a < target
    here (IdStream.seek target s) = left.head? ∧ Ahead (IdStream.seek target s) left.tail

namespace Tape

variable {S A : Type} [IdStream S] (tape : Tape S A) {s t : S} {items : List A}

/-- Whatever is ahead has an id. -/
theorem id_ne_zero (h : tape.Ahead s items) {a : A} (ha : a ∈ items) : tape.id a ≠ 0 := by
  have habove := tape.above h a ha
  intro hzero
  rw [hzero] at habove
  exact UInt32.not_lt_zero habove

/-- A state with an item behind others stands on that item, or on nothing if there is none. -/
theorem current_of_here {item : Option A} (h : tape.here s = item) :
    IdStream.current s = (item.map tape.id).getD 0 := by
  rw [tape.current_eq, h]

/-- A move rests, or takes the first of some items ahead and leaves the others. -/
theorem move_cases (h : tape.Ahead s items) (m : Move) :
    (IdStream.move m s = s ∧ IdStream.current s ≠ 0) ∨ ∃ left, left <:+ items ∧
      tape.here (IdStream.move m s) = left.head? ∧ tape.Ahead (IdStream.move m s) left.tail := by
  cases m with
  | next => exact .inr ⟨items, List.suffix_rfl, tape.next h⟩
  | seek target =>
    by_cases hrest : (Move.seek target).rests (IdStream.current s)
    · exact .inl ⟨tape.rests hrest, (of_decide_eq_true hrest).1⟩
    · exact .inr ⟨_, List.dropWhile_suffix _, tape.seek h hrest⟩

/-- The stream always has some items ahead, and none once it stands on nothing again. -/
theorem ahead_moves (h : tape.Ahead s items) (ms : List Move) :
    ∃ left, tape.Ahead (moves IdStream.move ms s) left ∧
      (ms ≠ [] → IdStream.current (moves IdStream.move ms s) = 0 →
        left = [] ∧ tape.here (moves IdStream.move ms s) = none) := by
  -- The last move decides: one that rests stands on an id, any other on the item that it took.
  induction ms using List.reverseRecOn with
  | nil => exact ⟨items, h, fun hne => absurd rfl hne⟩
  | append_singleton ms m ih =>
    obtain ⟨left, hleft, -⟩ := ih
    have hmoves : moves IdStream.move (ms ++ [m]) s
        = IdStream.move m (moves IdStream.move ms s) := List.foldl_append
    rw [hmoves]
    rcases tape.move_cases hleft m with ⟨hsame, hid⟩ | ⟨taken, hsuffix, hhere, hahead⟩
    · rw [hsame]
      exact ⟨left, hleft, fun _ hzero => absurd hzero hid⟩
    · refine ⟨taken.tail, hahead, fun _ hzero => ?_⟩
      cases taken with
      | nil => exact ⟨rfl, hhere⟩
      | cons a rest =>
        rw [tape.current_of_here hhere] at hzero
        exact absurd hzero (tape.id_ne_zero hleft (hsuffix.subset List.mem_cons_self))

/-- Whatever moves are made, the stream stands where it stood or on one of the items ahead, -/
theorem here_moves (h : tape.Ahead s items) (ms : List Move) {a : A}
    (ha : tape.here (moves IdStream.move ms s) = some a) : tape.here s = some a ∨ a ∈ items := by
  induction ms generalizing s items with
  | nil => exact .inl ha
  | cons m ms ih =>
    rcases tape.move_cases h m with ⟨hsame, -⟩ | ⟨left, hsuffix, hhere, hahead⟩
    · have hmoves : moves IdStream.move (m :: ms) s = moves IdStream.move ms s :=
        congrArg (moves IdStream.move ms) hsame
      exact ih h (hmoves ▸ ha)
    · refine .inr (hsuffix.subset ?_)
      rcases ih hahead ha with hhead | htail
      · exact List.mem_of_mem_head? (hhere ▸ hhead)
      · exact List.mem_of_mem_tail htail

/-- and each of them can be reached. -/
theorem exists_moves (h : tape.Ahead s items) {a : A} (ha : a ∈ items) :
    ∃ ms, tape.here (moves IdStream.move ms s) = some a := by
  induction items generalizing s with
  | nil => cases ha
  | cons first rest ih =>
    obtain ⟨hhere, hahead⟩ := tape.next h
    rcases List.mem_cons.1 ha with rfl | hrest
    · exact ⟨[.next], hhere⟩
    · obtain ⟨ms, hms⟩ := ih hahead hrest
      exact ⟨.next :: ms, hms⟩

/-- **States that stand on the same item and have the same ahead are indistinct.** -/
theorem indistinct (hhere : tape.here s = tape.here t) (hs : tape.Ahead s items)
    (ht : tape.Ahead t items) : Indistinct tape.here s t := by
  intro ms
  induction ms generalizing s t items with
  | nil => exact hhere
  | cons m ms ih =>
    have hcurrent : IdStream.current s = IdStream.current t := by
      rw [tape.current_eq, tape.current_eq, hhere]
    cases m with
    | next =>
      obtain ⟨hhere', hs'⟩ := tape.next hs
      obtain ⟨hhere'', ht'⟩ := tape.next ht
      exact ih (hhere'.trans hhere''.symm) hs' ht'
    | seek target =>
      by_cases hrest : (Move.seek target).rests (IdStream.current s)
      · have hsame : IdStream.move (.seek target) s = s := tape.rests hrest
        have hsame' : IdStream.move (.seek target) t = t := tape.rests (hcurrent ▸ hrest)
        show tape.here (moves IdStream.move ms (IdStream.move (.seek target) s))
          = tape.here (moves IdStream.move ms (IdStream.move (.seek target) t))
        rw [hsame, hsame']
        exact ih hhere hs ht
      · obtain ⟨hhere', hs'⟩ := tape.seek hs hrest
        obtain ⟨hhere'', ht'⟩ := tape.seek ht (hcurrent ▸ hrest)
        exact ih (hhere'.trans hhere''.symm) hs' ht'

/-- **Steps lead to the first item at or after the target.** -/
theorem paces (h : tape.Ahead s items) (target : DocId) :
    let left := items.dropWhile fun a => tape.id a < target
    ∃ t, Paces target s t ∧ tape.here t = left.head? ∧ tape.Ahead t left.tail := by
  induction items generalizing s with
  | nil =>
    obtain ⟨hhere, hahead⟩ := tape.next h
    exact ⟨IdStream.next s, .arrive (.inl (tape.current_of_here hhere)), hhere, hahead⟩
  | cons a rest ih =>
    obtain ⟨hhere, hahead⟩ := tape.next h
    have hcurrent : IdStream.current (IdStream.next s) = tape.id a := tape.current_of_here hhere
    by_cases hlow : tape.id a < target
    · obtain ⟨t, hpaces, ht⟩ := ih hahead
      have hid : IdStream.current (IdStream.next s) ≠ 0 := by
        rw [hcurrent]
        exact tape.id_ne_zero h List.mem_cons_self
      refine ⟨t, .step hid (hcurrent ▸ hlow) hpaces, ?_⟩
      rwa [List.dropWhile_cons, if_pos (decide_eq_true hlow)]
    · refine ⟨IdStream.next s, .arrive (.inr (hcurrent ▸ UInt32.not_lt.1 hlow)), ?_⟩
      rw [List.dropWhile_cons, if_neg (by simpa using hlow)]
      exact ⟨hhere, hahead⟩

/-- **Streams that read items off a list seek as paced.** -/
theorem seeksAsPaced (h : tape.Ahead s items) : SeeksAsPaced tape.here s := by
  intro ms target
  obtain ⟨left, hleft, hover⟩ := tape.ahead_moves h ms
  generalize moves IdStream.move ms s = s at hleft hover
  intro s
  split
  next hstays =>
    by_cases hrest : (Move.seek target).rests (IdStream.current s)
    · rw [tape.rests hrest]
      exact fun ms => rfl
    · -- Past the last id there is nothing to seek.
      have hended : ms ≠ [] ∧ IdStream.current s = 0 :=
        hstays.resolve_right fun hreached => hrest (decide_eq_true hreached)
      obtain ⟨rfl, hnone⟩ := hover hended.1 hended.2
      obtain ⟨hhere, hahead⟩ := tape.seek hleft hrest
      exact tape.indistinct (hhere.trans hnone.symm) hahead hleft
  next hmoves =>
    have hrest : ¬ (Move.seek target).rests (IdStream.current s) := fun hrest =>
      hmoves (.inr (of_decide_eq_true hrest))
    obtain ⟨t, hpaces, hhere, hahead⟩ := tape.paces hleft target
    obtain ⟨hhere', hahead'⟩ := tape.seek hleft hrest
    exact ⟨t, hpaces, tape.indistinct (hhere'.trans hhere.symm) hahead' hahead⟩

/-- **Drained, the stream stands on the items ahead**, one after another. -/
theorem drain_eq (h : tape.Ahead s items) : (IdStream.drain s).filterMap tape.here = items := by
  induction items generalizing s with
  | nil =>
    obtain ⟨hhere, -⟩ := tape.next h
    have hnone : tape.here (IdStream.next s) = none := hhere
    have hend : ¬ IdStream.current s < IdStream.current (IdStream.next s) := by
      rw [tape.current_of_here hhere]
      exact UInt32.not_lt_zero
    rw [IdStream.drain, if_neg hend, List.filterMap_cons_none hnone]
    rfl
  | cons a rest ih =>
    obtain ⟨hhere, hahead⟩ := tape.next h
    have hsome : tape.here (IdStream.next s) = some a := hhere
    have hstep : IdStream.current s < IdStream.current (IdStream.next s) := by
      rw [tape.current_of_here hhere]
      exact tape.above h a List.mem_cons_self
    rw [IdStream.drain, if_pos hstep, List.filterMap_cons_some hsome, ih hahead]

end Tape
end InvertedIndex
