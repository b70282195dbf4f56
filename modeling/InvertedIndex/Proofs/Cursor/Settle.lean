import InvertedIndex.Cursor.Settle
import InvertedIndex.Proofs.Cursor.Reference
import Mathlib.Data.List.Forall2

/-!
# `Proofs.Cursor.Settle` — what the search loops find

A loop over ascending candidates is reasoned about with an invariant of the states that it tries.
For the loop that aligns a leader with other streams, the invariant is that the leader stands on its
first id at or after some bound, that no other stream has passed that bound, and that raising the
bound so far has skipped no common id.

## Contents
- `settle_spec`, `settle_keeps`: the rule for the loop; `settle_congr`: loops that agree;
- `settle_first`: the rule for a search through the ids of a list;
- `seekAll_spec`: seeking one id in all streams;
- `Aligning`: the invariant while a leader is aligned; `Aligning.accept`, `Aligning.retry`: one round;
- `align_spec`: the first common id.
-/

namespace InvertedIndex

/-- **The rule for the loop**: an invariant of the states tried, and what it says wherever the loop
    can end. -/
theorem settle_spec {S : Type} {candidate : S → DocId} {attempt : S → Attempt S}
    (Inv : S → Prop) (Post : S → DocId → Prop)
    (none_left : ∀ s, Inv s → candidate s = 0 → Post s 0)
    (accepted : ∀ s s', Inv s → candidate s ≠ 0 → attempt s = .accept s' → Post s' (candidate s))
    (retried : ∀ s s', Inv s → candidate s ≠ 0 → attempt s = .retry s' →
      if candidate s < candidate s' then Inv s' else Post s' 0)
    {s : S} (h : Inv s) :
    Post (settle candidate attempt s).1 (settle candidate attempt s).2 := by
  fun_induction settle candidate attempt s with
  | case1 s hzero => exact none_left s h hzero
  | case2 s hne s' hattempt => exact accepted s s' h hne hattempt
  | case3 s hne s' hattempt hlt ih =>
    have hinv := retried s s' h hne hattempt
    rw [if_pos hlt] at hinv
    exact ih hinv
  | case4 s hne s' hattempt hlt =>
    have hpost := retried s s' h hne hattempt
    rwa [if_neg hlt] at hpost

/-- The state that an attempt leaves behind. -/
def Attempt.state {S : Type} : Attempt S → S
  | .accept s | .retry s => s

/-- A loop over states whose attempts keep a property ends in a state with the property. -/
theorem settle_keeps {S : Type} {candidate : S → DocId} {attempt : S → Attempt S} (Kept : S → Prop)
    (hattempt : ∀ s, Kept s → Kept (attempt s).state) {s : S} (h : Kept s) :
    Kept (settle candidate attempt s).1 := by
  refine settle_spec Kept (fun s _ => Kept s) (fun _ h _ => h) ?_ ?_ h
  · intro s s' hs _ haccept
    have hkept := hattempt s hs
    rwa [haccept] at hkept
  · intro s s' hs _ hretry
    have hkept := hattempt s hs
    rw [hretry] at hkept
    rwa [ite_self]

/-- Loops whose attempts agree on states with a property, and keep it, find the same. -/
theorem settle_congr {S : Type} {candidate : S → DocId} {attempt attempt' : S → Attempt S}
    (Kept : S → Prop) (hsame : ∀ s, Kept s → attempt s = attempt' s)
    (hkept : ∀ s, Kept s → Kept (attempt s).state) {s : S} (h : Kept s) :
    settle candidate attempt s = settle candidate attempt' s := by
  have hstate {s s' : S} (hs : Kept s) (hattempt : attempt s = .retry s') : Kept s' := by
    have hnext := hkept s hs
    rwa [hattempt] at hnext
  fun_induction settle candidate attempt s with
  | case1 s hzero => rw [settle, if_pos hzero]
  | case2 s hne s' haccept =>
    rw [hsame s h] at haccept
    rw [settle, if_neg hne, haccept]
  | case3 s hne s' hretry hlt ih =>
    rw [ih (hstate h hretry)]
    rw [hsame s h] at hretry
    rw [settle.eq_def _ _ s, if_neg hne, hretry]
    exact (if_pos hlt).symm
  | case4 s hne s' hretry hlt =>
    rw [hsame s h] at hretry
    rw [settle, if_neg hne, hretry]
    exact (if_neg hlt).symm

theorem seekAll_congr {C : Type} {current : C → DocId} {seek seek' : DocId → C → C} {id : DocId}
    {others : List C} (h : ∀ c ∈ others, seek id c = seek' id c) :
    seekAll current seek id others = seekAll current seek' id others := by
  induction others with
  | nil => rfl
  | cons c rest ih =>
    obtain ⟨hhead, htail⟩ := List.forall_mem_cons.1 h
    unfold seekAll
    simp only [hhead, ih htail]

/-- **The rule for a search**: when candidates run through the ids of one list, and are taken if they
    are among those of another, the loop ends on the first of these. `Stand bound` says of a state
    that it stands on its first candidate at or after the bound. -/
theorem settle_first {S : Type} (candidate : S → DocId) (attempt : S → Attempt S) {all ids : IdList}
    (Stand : Nat → S → Prop) (hsub : ∀ id ∈ ids, id ∈ all)
    (hcandidate : ∀ {bound s}, Stand bound s → candidate s = all.first bound)
    (hattempt : ∀ {bound s}, Stand bound s → candidate s ≠ 0 →
      (candidate s ∈ ids ∧ attempt s = .accept s) ∨
      (candidate s ∉ ids ∧ ∃ s', attempt s = .retry s' ∧ Stand ((candidate s).toNat + 1) s'))
    {low : Nat} {s : S} (h : Stand low s) :
    let (s', id) := settle candidate attempt s
    id = ids.first low ∧ candidate s' = ids.first low ∧ ∃ bound, Stand bound s' := by
  have hend {bound : Nat} (hzero : all.first bound = 0) : ids.first bound = 0 := by
    rw [IdList.first_eq_zero_iff] at hzero ⊢
    exact fun id hid => hzero id (hsub id hid)
  -- The invariant: the candidate is the first of all ids from a bound on, and no id was skipped so
  -- far.
  refine settle_spec (fun s => ∃ bound, Stand bound s ∧ ids.first low = ids.first bound)
    (fun s' id => id = ids.first low ∧ candidate s' = ids.first low ∧ ∃ bound, Stand bound s')
    ?_ ?_ ?_ ⟨low, h, rfl⟩
  · rintro s ⟨bound, hs, hlow⟩ hzero
    rw [hcandidate hs] at hzero
    rw [hlow, hend hzero, hcandidate hs, hzero]
    exact ⟨rfl, rfl, bound, hs⟩
  · rintro s s' ⟨bound, hs, hlow⟩ hne haccept
    rcases hattempt hs hne with ⟨hmem, hsame⟩ | ⟨-, s'', hretry, -⟩
    · rw [haccept] at hsame
      cases hsame
      have hfirst : ids.first bound = candidate s := by
        rw [hcandidate hs] at hne hmem ⊢
        exact IdList.first_eq hmem (IdList.le_first hne) fun other hother hle =>
          IdList.first_le (hsub other hother) hle
      rw [hlow, hfirst]
      exact ⟨rfl, rfl, bound, hs⟩
    · rw [haccept] at hretry
      cases hretry
  · rintro s s' ⟨bound, hs, hlow⟩ hne hretry
    rcases hattempt hs hne with ⟨-, haccept⟩ | ⟨hmem, s'', hretry', hnext⟩
    · rw [hretry] at haccept
      cases haccept
    · rw [hretry] at hretry'
      cases hretry'
      -- The refused candidate is no id, so the bound can be raised past it.
      have hraise : ids.first low = ids.first ((candidate s).toNat + 1) := by
        rw [hlow]
        refine (IdList.first_raise ?_ ?_).symm
        · rw [hcandidate hs] at hne ⊢
          exact (IdList.le_first hne).trans (Nat.le_succ _)
        · intro id hid hle
          have hle' := IdList.first_le (hsub id hid) hle
          rw [← hcandidate hs] at hle'
          have hother : (candidate s).toNat ≠ id.toNat := fun heq =>
            hmem (UInt32.toNat_inj.1 heq ▸ hid)
          omega
      split
      · exact ⟨_, hnext, hraise⟩
      next hstuck =>
        have hzero : all.first ((candidate s).toNat + 1) = 0 := by
          by_contra hlater
          rw [hcandidate hnext] at hstuck
          exact hstuck (UInt32.lt_iff_toNat_lt.2 (IdList.le_first hlater))
        rw [hraise, hend hzero, hcandidate hnext, hzero]
        exact ⟨rfl, rfl, _, hnext⟩

/-! ## Streams side by side -/

section Align

variable {C : Type} {current : C → DocId} {move : Move → C → C}
variable {lead : Simulation current move} {sims : List (Simulation current move)}

/-- Every stream is at a phase. -/
def AllAt (sims : List (Simulation current move)) (phase : Phase) (others : List C) : Prop :=
  List.Forall₂ (fun sim c => sim.At phase c) sims others

/-- No stream has passed a bound. -/
def AllBehind (sims : List (Simulation current move)) (low : Nat) (others : List C) : Prop :=
  List.Forall₂ (fun sim c => sim.Behind low c) sims others

theorem AllBehind.mono {low low' : Nat} {others : List C} (h : AllBehind sims low others)
    (hle : low ≤ low') : AllBehind sims low' others :=
  h.imp fun _ _ hbehind => hbehind.mono hle

theorem AllAt.allBehind {m : Move} {phase : Phase} {others : List C} (h : AllAt sims phase others)
    (hspent : phase ≠ .spent) (hrest : ¬ m.rests phase.current) :
    AllBehind sims (IdList.bound phase.current m) others :=
  h.imp fun _ _ hat => Simulation.behind_of_move hat hspent hrest

/-- Streams on one id all have it. -/
theorem AllAt.mem {id : DocId} {others : List C} (h : AllAt sims (.hit id) others) :
    ∀ sim ∈ sims, id ∈ sim.ids := by
  induction h with
  | nil => exact nofun
  | cons hat _ ih =>
    intro sim hsim
    rcases List.mem_cons.1 hsim with rfl | hsim
    · exact sim.has hat id rfl
    · exact ih sim hsim

/-- Seeking an id in all streams either brings all of them to it, or finds one without it and the
    first id that this one has instead. -/
theorem seekAll_spec {id : DocId} {others : List C} (h : AllBehind sims id.toNat others)
    (hid : id ≠ 0) :
    let (others', got) := seekAll current (fun target => move (.seek target)) id others
    AllBehind sims id.toNat others' ∧
      ((got = id ∧ AllAt sims (.hit id) others') ∨
        (got ≠ id ∧ ∃ sim ∈ sims, got = sim.ids.first id.toNat)) := by
  induction h with
  | nil => exact ⟨.nil, .inl ⟨rfl, .nil⟩⟩
  | @cons sim c sims others hbehind hothers ih =>
    have hseek := hbehind.seek
    have hcurrent : current (move (.seek id) c) = sim.ids.first id.toNat := by
      rw [sim.current_eq hseek, Phase.ofId_current]
    unfold seekAll
    -- The first stream that does not come to the id ends the round; the rest have not been moved.
    by_cases hhere : current (move (.seek id) c) = id
    · simp only [if_pos hhere]
      obtain ⟨hbehind', hgot⟩ := ih
      refine ⟨.cons (Simulation.behind_of_at hseek) hbehind', ?_⟩
      rcases hgot with ⟨hgot, hat⟩ | ⟨hgot, missing, hmissing, hfirst⟩
      · rw [← hcurrent, hhere, Phase.ofId_of_ne hid] at hseek
        exact .inl ⟨hgot, .cons hseek hat⟩
      · exact .inr ⟨hgot, missing, List.mem_cons_of_mem _ hmissing, hfirst⟩
    · simp only [if_neg hhere]
      exact ⟨.cons (Simulation.behind_of_at hseek) hothers,
        .inr ⟨hhere, sim, List.mem_cons_self, hcurrent⟩⟩

/-- While a leader is aligned with the others, it stands on its first id from a bound on, no other
    stream has passed the bound, and raising the bound so far has skipped no common id. -/
structure Aligning (lead : Simulation current move) (sims : List (Simulation current move))
    (common : IdList) (low bound : Nat) (s : C × List C) : Prop where
  leading : lead.At (.ofId (lead.ids.first bound)) s.1
  behind : AllBehind sims bound s.2
  first : common.first low = common.first bound

/-- A leader that is aligned with the others stands with them on the first common id, if any. -/
def Aligned (lead : Simulation current move) (sims : List (Simulation current move))
    (common : IdList) (low : Nat) (s : C × List C) (id : DocId) : Prop :=
  id = common.first low ∧ (id ≠ 0 → lead.At (.hit id) s.1 ∧ AllAt sims (.hit id) s.2)

section Common

variable {common : IdList} {low bound : Nat} {s : C × List C}
  (hcommon : ∀ id, id ∈ common ↔ id ∈ lead.ids ∧ ∀ sim ∈ sims, id ∈ sim.ids)

include hcommon

/-- Without an id of the leader there is no common one. -/
theorem first_common_zero (hzero : lead.ids.first bound = 0) : common.first bound = 0 := by
  rw [IdList.first_eq_zero_iff] at hzero ⊢
  exact fun id hid => hzero id ((hcommon id).1 hid).1

/-- The leader's first id is the first common one if all the others have it. -/
theorem first_common_hit (hne : lead.ids.first bound ≠ 0) {others : List C}
    (hall : AllAt sims (.hit (lead.ids.first bound)) others) :
    common.first bound = lead.ids.first bound := by
  have hmem : lead.ids.first bound ∈ common := (hcommon _).2 ⟨IdList.first_mem hne, hall.mem⟩
  refine IdList.first_eq hmem (IdList.le_first hne) ?_
  intro other hother hle
  exact IdList.first_le ((hcommon other).1 hother).1 hle

/-- Where another stream has a later id instead of the leader's, no common id comes before that. -/
theorem le_common {missing : Simulation current move} (hmissing : missing ∈ sims) {id : DocId}
    (hid : id ∈ common) (hle : bound ≤ id.toNat) :
    missing.ids.first (lead.ids.first bound).toNat ≠ 0 ∧
      (missing.ids.first (lead.ids.first bound).toNat).toNat ≤ id.toNat := by
  obtain ⟨hlead, hsims⟩ := (hcommon id).1 hid
  have hfirst : (lead.ids.first bound).toNat ≤ id.toNat := IdList.first_le hlead hle
  have hthere : id ∈ missing.ids := hsims missing hmissing
  exact ⟨IdList.first_ne_zero hthere hfirst, IdList.first_le hthere hfirst⟩

/-- If all the others have the leader's id, the leader is aligned with them. -/
theorem Aligning.accept (h : Aligning lead sims common low bound s)
    (hne : lead.ids.first bound ≠ 0) {others : List C}
    (hall : AllAt sims (.hit (lead.ids.first bound)) others) :
    Aligned lead sims common low (s.1, others) (lead.ids.first bound) := by
  have hleading := h.leading
  rw [Phase.ofId_of_ne hne] at hleading
  exact ⟨(h.first.trans (first_common_hit hcommon hne hall)).symm, fun _ => ⟨hleading, hall⟩⟩

/-- If another stream has a later id instead, the leader goes on from there; where this does not
    bring it to a later id, there is no common one. -/
theorem Aligning.retry (h : Aligning lead sims common low bound s)
    (hne : lead.ids.first bound ≠ 0) {missing : Simulation current move} (hmissing : missing ∈ sims)
    {got : DocId} (hgot : got = missing.ids.first (lead.ids.first bound).toNat)
    (hother : got ≠ lead.ids.first bound) {others : List C}
    (hbehind : AllBehind sims (lead.ids.first bound).toNat others) :
    let s' := (move (.seek got) s.1, others)
    if lead.ids.first bound < current s'.1 then ∃ bound', Aligning lead sims common low bound' s'
    else Aligned lead sims common low s' 0 := by
  intro s'
  by_cases hgone : got = 0
  · -- The other stream has ended: seeking `0` leaves the leader where it is.
    have hnone : common.first bound = 0 := by
      rw [IdList.first_eq_zero_iff]
      intro id hid
      by_contra hlow
      exact (le_common hcommon hmissing hid (by omega)).1 (hgot ▸ hgone)
    have hrest : (Move.seek got).rests (Phase.ofId (lead.ids.first bound)).current := by
      rw [Phase.ofId_current, hgone]
      exact decide_eq_true ⟨hne, UInt32.zero_le⟩
    have hstay := lead.move_at (.seek got) h.leading
    rw [IdList.move_rests hrest] at hstay
    rw [lead.current_eq hstay, Phase.ofId_current, if_neg (UInt32.lt_irrefl _)]
    exact ⟨(h.first.trans hnone).symm, absurd rfl⟩
  · -- Otherwise its id becomes the new bound.
    have habove : (lead.ids.first bound).toNat ≤ got.toNat := by
      rw [hgot] at hgone ⊢
      exact IdList.le_first hgone
    have hle : bound ≤ (lead.ids.first bound).toNat := IdList.le_first hne
    have hraise : common.first got.toNat = common.first bound := by
      refine IdList.first_raise (by omega) ?_
      intro id hid hlow
      rw [hgot]
      exact (le_common hcommon hmissing hid hlow).2
    have hleading := ((Simulation.behind_of_at h.leading).mono (by omega : bound ≤ got.toNat)).seek
    have hcurrent := lead.current_eq hleading
    rw [Phase.ofId_current] at hcurrent
    rw [hcurrent]
    split
    · exact ⟨got.toNat, hleading, hbehind.mono habove, h.first.trans hraise.symm⟩
    next hstuck =>
      -- It did not bring the leader to a later id, so the leader has none left.
      have hzero : lead.ids.first got.toNat = 0 := by
        by_contra hfirst
        have hlater := IdList.le_first hfirst
        have hne' : (lead.ids.first bound).toNat ≠ got.toNat := fun heq =>
          hother (UInt32.toNat_inj.1 heq.symm)
        rw [UInt32.lt_iff_toNat_lt] at hstuck
        omega
      exact ⟨(h.first.trans (hraise.symm.trans (first_common_zero hcommon hzero))).symm, absurd rfl⟩

/-- **Aligning finds the first common id**: from a leader on its first id at or after a bound, and
    others that have not passed the bound. -/
theorem align_spec {c : C} {others : List C} (hlead : lead.At (.ofId (lead.ids.first low)) c)
    (hothers : AllBehind sims low others) :
    let (s, id) := align current (fun target => move (.seek target)) (c, others)
    Aligned lead sims common low s id := by
  -- Along the rounds, some bound keeps the invariant; what ends them is the end of the leader, an
  -- id that all have, or no later id.
  refine settle_spec (fun s => ∃ bound, Aligning lead sims common low bound s)
    (Aligned lead sims common low) ?_ ?_ ?_ ⟨low, hlead, hothers, rfl⟩
  · rintro s ⟨bound, h⟩ hzero
    rw [lead.current_eq h.leading, Phase.ofId_current] at hzero
    exact ⟨(h.first.trans (first_common_zero hcommon hzero)).symm, absurd rfl⟩
  · rintro ⟨c, others⟩ s' ⟨bound, h⟩ hne hattempt
    have hcurrent := lead.current_eq h.leading
    rw [Phase.ofId_current] at hcurrent
    simp only at hne hattempt hcurrent ⊢
    rw [hcurrent] at hne hattempt ⊢
    have hgot := seekAll_spec (h.behind.mono (IdList.le_first hne)) hne
    split at hattempt
    next hhere =>
      cases hattempt
      rcases hgot.2 with ⟨-, hall⟩ | ⟨hmissing, -⟩
      · exact h.accept hcommon hne hall
      · exact absurd hhere hmissing
    · cases hattempt
  · rintro ⟨c, others⟩ s' ⟨bound, h⟩ hne hattempt
    have hcurrent := lead.current_eq h.leading
    rw [Phase.ofId_current] at hcurrent
    simp only at hne hattempt hcurrent ⊢
    rw [hcurrent] at hne hattempt ⊢
    have hgot := seekAll_spec (h.behind.mono (IdList.le_first hne)) hne
    split at hattempt
    · cases hattempt
    next hother =>
      cases hattempt
      rcases hgot.2 with ⟨hhere, -⟩ | ⟨-, missing, hmissing, hlater⟩
      · exact absurd hhere hother
      · exact h.retry hcommon hne hmissing hlater hother hgot.1

end Common

end Align
end InvertedIndex
