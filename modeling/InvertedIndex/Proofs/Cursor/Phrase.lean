import InvertedIndex.Proofs.Cursor.Algebra

/-!
# `Proofs.Cursor.Phrase` — what a phrase takes

A phrase goes through the ids that all its parts have and takes those at which the windows of the
parts are aligned. All it needs for the protocol is that this depends on the id alone, and not on how
the parts have come to it; whatever the windows are then, the phrase has the ids that it takes.

## Contents
- `Taken`: the ids that a phrase takes;
- `attemptPhrase_spec`, `settlePhrase_spec`: the search for the next one;
- `alignedSim`: a phrase moves like the machine on them.
-/

namespace InvertedIndex
namespace Cursor

variable {L : Type} [IdStream L] {n : Nat}

theorem windows_eq_map (subs : List (Cursor L)) : window.windows subs = subs.map window := by
  induction subs with
  | nil => rfl
  | cons c rest ih => rw [window.windows, ih, List.map_cons]

/-- The ids that a phrase takes: all parts have them, and where the parts stand together their windows
    are aligned at these ids and no others. -/
structure Taken (sims : List (Sim L n)) (ids : IdList) : Prop where
  common : ∀ id ∈ ids, ∀ sim ∈ sims, id ∈ sim.ids
  aligned : ∀ {id subs}, AllAt sims (.hit id) subs →
    (id ∈ ids ↔ Window.alignments (subs.map window) ≠ [])

/-- The search for the next id of a phrase: the parts stand together on their first common id at or
    after a bound. -/
abbrev Abreast (lead : Sim L n) (sims : List (Sim L n)) (common : IdList) (bound : Nat)
    (s : (Cursor L × List (Cursor L)) × DocId) : Prop :=
  Aligned lead sims common bound s.1 s.2

section Search

variable {lead : Sim L n} {sims : List (Sim L n)} {common ids : IdList}
  (hcommon : ∀ id, id ∈ common ↔ id ∈ lead.ids ∧ ∀ sim ∈ sims, id ∈ sim.ids)
  (htaken : Taken (lead :: sims) ids)

include hcommon htaken

/-- Trying a common id: it is taken if the windows are aligned there. -/
theorem attemptPhrase_spec {bound : Nat} {s : (Cursor L × List (Cursor L)) × DocId}
    (h : Abreast lead sims common bound s) (hne : s.2 ≠ 0) :
    (s.2 ∈ ids ∧ attemptPhrase (moveWithin n) s = .accept s) ∨
      (s.2 ∉ ids ∧ ∃ s', attemptPhrase (moveWithin n) s = .retry s' ∧
        Abreast lead sims common (s.2.toNat + 1) s') := by
  obtain ⟨⟨c, others⟩, id⟩ := s
  obtain ⟨hlead, hothers⟩ := h.2 hne
  have haligned := htaken.aligned (.cons hlead hothers)
  rw [List.map_cons] at haligned
  simp only [attemptPhrase]
  by_cases hid : id ∈ ids
  · rw [if_neg (haligned.1 hid)]
    exact .inl ⟨hid, rfl⟩
  · rw [if_pos (not_not.1 (mt haligned.2 hid))]
    refine .inr ⟨hid, _, rfl, ?_⟩
    have hrest : ¬ Move.next.rests (Phase.hit id).current := by simp [Move.rests]
    have hnext := Simulation.move_first hlead Phase.hit_ne_spent hrest
    exact align_spec hcommon hnext (hothers.allBehind Phase.hit_ne_spent hrest)

/-- The search for the next id of a phrase finds the first one at or after a bound. -/
theorem settlePhrase_spec {low : Nat} {s : (Cursor L × List (Cursor L)) × DocId}
    (h : Abreast lead sims common low s) :
    let (s', id) := settle Prod.snd (attemptPhrase (moveWithin n)) s
    Aligned lead sims ids low s'.1 id := by
  have hstands {bound : Nat} {s : (Cursor L × List (Cursor L)) × DocId}
      (hs : Abreast lead sims common bound s) : s.2 = common.first bound := hs.1
  have hsub : ∀ id ∈ ids, id ∈ common := fun id hid =>
    (hcommon id).2 (List.forall_mem_cons.1 (htaken.common id hid))
  -- Any common id may be refused, and the search goes on with the next one.
  have hfound := settle_first Prod.snd (attemptPhrase (moveWithin n)) _ hsub hstands
    (attemptPhrase_spec hcommon htaken) h
  generalize settle Prod.snd (attemptPhrase (moveWithin n)) s = found at hfound ⊢
  obtain ⟨⟨parts, id'⟩, id⟩ := found
  obtain ⟨hid, hid', bound, hat⟩ := hfound
  obtain rfl : id' = id := hid'.trans hid.symm
  exact ⟨hid, hat.2⟩

end Search

/-- A phrase has the ids that it takes. -/
def alignedSim (sims : List (Sim L n)) (ids : IdList) (htaken : Taken sims ids) : Sim L (n + 1) where
  ids := ids
  At phase c := ids.Has phase ∧ ∃ subs, c = .phrase subs phase ∧ Together sims phase subs
  has h := h.1
  current_eq := by
    rintro phase _ ⟨-, subs, rfl, -⟩
    rfl
  move_at := by
    rintro m phase _ ⟨hphase, subs, rfl, htogether⟩
    refine ⟨IdList.has_move hphase m, ?_⟩
    by_cases h : m.rests phase.current ∨ phase = .spent
    · rw [moveWithin_phrase_rests h, IdList.move_stays h]
      exact ⟨subs, rfl, htogether⟩
    · obtain ⟨hrest, hspent⟩ := not_or.1 h
      have htogether' := htogether hspent
      rw [IdList.move_eq hspent hrest]
      cases sims with
      -- No parts, no positions: the first move already spends the cursor.
      | nil =>
        obtain rfl := List.forall₂_nil_left_iff.1 htogether'
        have hnone : ids.first (IdList.bound phase.current m) = 0 :=
          IdList.first_eq_zero_iff.2 fun id hid => absurd rfl ((htaken.aligned .nil).1 hid)
        refine ⟨[], ?_, fun _ => .nil⟩
        rw [hnone, moveWithin_phrase_nil, if_neg hrest]
        rfl
      | cons lead sims =>
        cases subs with
        | nil => cases htogether'
        | cons c others =>
          obtain ⟨hlead, hothers⟩ := List.forall₂_cons.1 htogether'
          -- The search goes through the common ids, which the parts reach together.
          let common : IdList := .ofSet {id | id ∈ lead.ids ∧ ∀ sim ∈ sims, id ∈ sim.ids}
          have hcommon (id : DocId) :
              id ∈ common ↔ id ∈ lead.ids ∧ ∀ sim ∈ sims, id ∈ sim.ids := by
            rw [IdList.mem_ofSet]
            exact and_iff_right_of_imp fun h => IdList.ne_zero h.1
          have haligned : Abreast lead sims common (IdList.bound phase.current m)
              (align current (fun target => moveWithin n (.seek target))
                (moveWithin n m c, others)) :=
            align_spec hcommon (Simulation.move_first hlead hspent hrest)
              (AllAt.allBehind hothers hspent hrest)
          have hfound := settlePhrase_spec hcommon htaken haligned
          rw [moveWithin_phrase hrest hspent]
          generalize settle Prod.snd (attemptPhrase (L := L) (moveWithin n)) _ = found at hfound ⊢
          obtain ⟨⟨⟨c', others'⟩, id'⟩, id⟩ := found
          obtain ⟨rfl, hat⟩ := hfound
          refine ⟨c' :: others', rfl, fun hne => ?_⟩
          by_cases hzero : ids.first (IdList.bound phase.current m) = 0
          · rw [hzero] at hne
            exact absurd rfl hne
          · rw [Phase.ofId_of_ne hzero]
            exact .cons (hat hzero).1 (hat hzero).2

end Cursor
end InvertedIndex
