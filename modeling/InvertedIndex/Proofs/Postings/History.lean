import InvertedIndex.Proofs.Postings.Ledger
import InvertedIndex.Proofs.Postings.Revision

/-!
# `Proofs.Postings.History` — what a run of changes asks of the arena

The steps that a change takes in the arena are read off the postings before and after it: the blocks
and the array of the one term that it changes, or all of them when everything is cleared. Strung
together they are the **history** of a run. The arena after the run is what the history makes of a
new one, and the total of the arena is at all times what the terms hold, so that no step takes off
more than there is.

## Contents
- `Postings.held`, `Postings.sumOver`: what a term holds, and totals over all terms;
- `Change.place?`, `Postings.stepsOf`, `Postings.history`: the steps of a change and of a run;
- `Postings.Acts`, `apply_acts`: the four things that a change can do to the terms;
- `Postings.Shift`, `Tracks.shift`: what they ask of the arena;
- `Shift.arena_eq`: the arena takes the steps of the change;
- `Tariff`, `ArenaStep.charge`, `ArenaStep.refund`: what steps add and take off;
- `Holding.weight`, `Shift.flow`: what the terms weigh follows the steps.
-/

namespace InvertedIndex

open ArenaStep

/-! ## Totals over the terms -/

namespace Postings

variable {postings : Postings} {ledger : Ledger}

/-- What a term holds, nothing if there is no such term. -/
def held (postings : Postings) (term : String) : Holding := (postings.holdings[term]?).getD {}

/-- A total over all terms. -/
def sumOver (f : Holding → Nat) (postings : Postings) : Nat :=
  (postings.holdings.toList.map fun entry => f entry.2).sum

/-- A total consists of the part of one term and those of the others. -/
theorem sumOver_eq {f : Holding → Nat} (hf : f {} = 0) (postings : Postings) (term : String) :
    postings.sumOver f = f (postings.held term)
      + ((postings.holdings.toList.filter fun entry => decide ¬(term == entry.1) = true).map
          fun entry => f entry.2).sum := by
  have hmem {entry : String × Holding} :
      entry ∈ postings.holdings.toList ↔ postings.holdings[entry.1]? = some entry.2 :=
    Std.TreeMap.mem_toList_iff_getElem?_eq_some
  have hnodup : postings.holdings.toList.Nodup := by
    refine Std.TreeMap.distinct_keys_toList.imp ?_
    rintro a b hne rfl
    exact hne Std.ReflCmp.compare_self
  -- Of the terms, only one is the given one.
  have hself : (postings.holdings.toList.filter fun entry =>
      !decide ¬(term == entry.1) = true).Perm
        ((postings.holdings[term]?).toList.map fun holding => (term, holding)) := by
    refine (List.perm_ext_iff_of_nodup (hnodup.filter _) ?_).2 ?_
    · cases postings.holdings[term]? <;> simp
    · rintro ⟨t, holding⟩
      rw [List.mem_filter, hmem]
      simp only [beq_iff_eq, Bool.not_eq_true', decide_eq_false_iff_not, not_not, List.mem_map,
        Option.mem_toList, Prod.mk.injEq]
      constructor
      · rintro ⟨hholding, rfl⟩
        exact ⟨holding, hholding, rfl, rfl⟩
      · rintro ⟨_, hholding, rfl, rfl⟩
        exact ⟨hholding, rfl⟩
  have hsplit := (List.filter_append_perm (fun entry : String × Holding =>
    decide ¬(term == entry.1) = true) postings.holdings.toList).map fun entry => f entry.2
  have hown : ((postings.holdings[term]?).toList.map fun holding => f holding).sum
      = f (postings.held term) := by
    unfold held
    cases postings.holdings[term]? <;> simp [hf]
  have hselfSum := (hself.map fun entry => f entry.2).sum_eq
  rw [List.map_map] at hselfSum
  rw [sumOver, ← hsplit.sum_eq, List.map_append, List.sum_append, hselfSum, Nat.add_comm]
  exact congrArg (· + _) hown

theorem held_le_sumOver {f : Holding → Nat} (hf : f {} = 0) (postings : Postings) (term : String) :
    f (postings.held term) ≤ postings.sumOver f := by
  rw [sumOver_eq hf postings term]
  exact Nat.le_add_right _ _

/-- When one term changes, a total changes by its part. -/
theorem sumOver_insert {f : Holding → Nat} (hf : f {} = 0) (postings : Postings) (term : String)
    (holding : Holding) (arena : Arena) :
    sumOver f ⟨postings.holdings.insert term holding, arena⟩ + f (postings.held term)
      = postings.sumOver f + f holding := by
  have hperm : (postings.holdings.insert term holding).toList.Perm _ :=
    Std.TreeMap.toList_insert_perm
  have hsum := (hperm.map fun entry => f entry.2).sum_eq
  rw [List.map_cons, List.sum_cons] at hsum
  rw [sumOver_eq hf postings term, sumOver, hsum]
  dsimp only
  omega

end Postings

/-! ## The steps of a change -/

/-- The term and the id that a change is about, `none` if it is about all of them. -/
def Change.place? : Change → Option (String × DocId)
  | .insert term id _ | .insertPositions term id _ | .erase term id => some (term, id)
  | .clear => none

/-- The change is an insertion into the term. -/
def Change.Inserts (term : String) : Change → Prop
  | .insert t _ _ | .insertPositions t _ _ => t = term
  | .erase _ _ | .clear => False

/-- A change inserts into one term only. -/
theorem Change.Inserts.term_eq {change : Change} {term other : String} (h : change.Inserts term)
    (hother : change.Inserts other) : term = other := by
  cases change with
  | insert | insertPositions => exact h.symm.trans hother
  | erase | clear => exact h.elim

/-- The class of the block that the group with the number has, if any. -/
def Holding.blockAt? (holding : Holding) (number : UInt16) : Option SizeClass :=
  (lookup Group.number number holding.groups).bind Group.blockClass?

/-- The steps by which a term whose group with the number changed comes to hold what `after` holds. -/
def Holding.stepsTo (number : UInt16) (before after : Holding) : List ArenaStep :=
  swapBlock (before.blockAt? number) (after.blockAt? number)
    ++ swapArray before.arrayClass after.arrayClass

theorem Holding.Revises.stepsTo_eq {number : UInt16} {old new : Option Group}
    {before after : Holding} {arena arena' : Arena}
    (h : Revises number old new before after arena arena') :
    stepsTo number before after
      = swapBlock (old.bind Group.blockClass?) (new.bind Group.blockClass?)
        ++ swapArray before.arrayClass after.arrayClass := by
  rw [stepsTo, blockAt?, blockAt?, h.groups.lookup_old, h.groups.lookup_new]

namespace Postings

variable {postings : Postings} {ledger : Ledger}

/-- The steps of a change, read off the postings before and after it. -/
def stepsOf (change : Change) (before after : Postings) : List ArenaStep :=
  match change.place? with
  | some (term, id) => (before.held term).stepsTo id.group (after.held term)
  | none => before.holdings.toList.flatMap fun entry => entry.2.releaseSteps

/-- The steps of a run of changes. -/
def history (postings : Postings) : List Change → List ArenaStep
  | [] => []
  | change :: rest =>
    stepsOf change postings (postings.apply change) ++ (postings.apply change).history rest

/-- The change is an insertion into the term that is not refused. -/
def Accepts (postings : Postings) (term : String) (change : Change) : Prop :=
  change.Inserts term ∧ ∃ changed, postings.attempt change = .ok changed

/-- How a change acts on the terms: they stay as they are, one of them takes an entry or loses an id,
    or all are given up. -/
inductive Acts (postings : Postings) (change : Change) : Postings → Prop
  | stays (hplace : change.place? ≠ none) (hrefused : ∀ term, ¬ postings.Accepts term change) :
    Acts postings change postings
  | inserts {term : String} {id : DocId} {payload : Bytes} {holding : Holding} {arena : Arena}
      (hplace : change.place? = some (term, id)) (haccepts : postings.Accepts term change)
      (hfits : Entry.Fits ⟨id.member, payload⟩)
      (hinsert : (postings.held term).insert postings.arena term id.group ⟨id.member, payload⟩
        = .ok (holding, arena)) :
    Acts postings change ⟨postings.holdings.insert term holding, arena⟩
  | erases {term : String} {id : DocId} {holding : Holding} {arena : Arena}
      (hplace : change.place? = some (term, id))
      (hrefused : ∀ term, ¬ postings.Accepts term change)
      (herase : (postings.held term).erase postings.arena id.group id.member
        = some (holding, arena)) :
    Acts postings change ⟨postings.holdings.insert term holding, arena⟩
  | clears (hchange : change = .clear) : Acts postings change postings.clear

theorem apply_acts (hclean : postings.arena.Clean) (change : Change) :
    postings.Acts change (postings.apply change) := by
  have hinsert {term : String} {id : DocId} {payload : Bytes}
      (hplace : change.place? = some (term, id)) (hinserts : change.Inserts term)
      (hattempt : postings.attempt change = postings.insert term id payload) :
      postings.Acts change (postings.apply change) := by
    unfold Postings.apply
    cases hresult : postings.attempt change with
    | error fault =>
      refine .stays (by simp [hplace]) ?_
      rintro other ⟨-, changed, hchanged⟩
      rw [hresult] at hchanged
      cases hchanged
    | ok changed =>
      obtain ⟨-, hlength, holding, arena, hholding, rfl⟩ :=
        insert_eq_ok hclean (hattempt ▸ hresult)
      exact .inserts hplace ⟨hinserts, _, hresult⟩ ⟨DocId.member_lt id, hlength⟩ hholding
  cases change with
  | insert term id payload => exact hinsert rfl rfl rfl
  | insertPositions term id positions => exact hinsert rfl rfl rfl
  | clear => exact .clears rfl
  | erase term id =>
    have hrefused : ∀ other, ¬ postings.Accepts other (.erase term id) := fun _ haccepts =>
      haccepts.1
    show postings.Acts (.erase term id) (postings.erase term id).2
    unfold Postings.erase
    split
    · split
      next holding arena herase =>
        obtain ⟨before, hbefore, herase⟩ := Option.bind_eq_some_iff.1 herase
        have hheld : postings.held term = before := by rw [held, hbefore]; rfl
        exact .erases rfl hrefused (hheld ▸ herase)
      · exact .stays nofun hrefused
    · exact .stays nofun hrefused

/-- What becomes of postings under a change: they stay as they are, an id is inserted or erased, or
    everything is cleared. -/
inductive Shift (postings : Postings) (change : Change) : Postings → Prop
  | stays (hplace : change.place? ≠ none) (hrefused : ∀ term, ¬ postings.Accepts term change) :
    Shift postings change postings
  | inserts {term : String} {id : DocId} {old : Option Group} {body : GroupBody}
      {holding : Holding} {arena : Arena} (hplace : change.place? = some (term, id))
      (haccepts : postings.Accepts term change)
      (hrevises : Holding.Revises id.group old (some ⟨id.group, body⟩) (postings.held term) holding
        postings.arena arena)
      (hmax : holding.maxBytes
        = max (postings.held term).maxBytes (Group.encodedSize ⟨id.group, body⟩)) :
    Shift postings change ⟨postings.holdings.insert term holding, arena⟩
  | erases {term : String} {id : DocId} {group : Group} {new : Option Group} {holding : Holding}
      {arena : Arena} (hplace : change.place? = some (term, id))
      (hrefused : ∀ term, ¬ postings.Accepts term change)
      (hrevises : Holding.Revises id.group (some group) new (postings.held term) holding
        postings.arena arena)
      (hmax : holding.maxBytes = (postings.held term).maxBytes)
      (hsize : ∀ group' ∈ new, group'.encodedSize ≤ group.encodedSize) :
    Shift postings change ⟨postings.holdings.insert term holding, arena⟩
  | clears (hchange : change = .clear) : Shift postings change postings.clear

/-- Terms and arena are of the smallest classes. -/
structure Regular (postings : Postings) : Prop where
  scaled : postings.arena.Scaled
  fitted : ∀ (term : String) (holding : Holding),
    postings.holdings[term]? = some holding → holding.Fitted

theorem Regular.fitted_held (h : postings.Regular) (term : String) :
    (postings.held term).Fitted := by
  unfold held
  cases hholding : postings.holdings[term]? with
  | none => exact Holding.empty_fitted
  | some holding => exact h.fitted term holding hholding

/-- **A change does one of four things.** -/
theorem Tracks.shift (h : postings.Tracks ledger) (hregular : postings.Regular) (change : Change) :
    postings.Shift change (postings.apply change) := by
  have hacts := apply_acts h.clean change
  generalize postings.apply change = after at hacts
  cases hacts with
  | stays hplace hrefused => exact .stays hplace hrefused
  | @inserts term id payload holding arena hplace haccepts hfits hinsert =>
    obtain ⟨old, body, hrevises, hmax⟩ := Holding.insert_revises h.clean hregular.scaled
      (h.sound_getD term).1 (hregular.fitted_held term) (DocId.group_lt id) hfits hinsert
    exact .inserts hplace haccepts hrevises hmax
  | @erases term id holding arena hplace hrefused herase =>
    obtain ⟨group, new, hrevises, hmax, hsize⟩ := Holding.erase_revises h.clean hregular.scaled
      (h.sound_getD term).1 (hregular.fitted_held term) herase
    exact .erases hplace hrefused hrevises hmax hsize
  | clears hchange => exact .clears hchange

theorem held_insert (postings : Postings) (term : String) (holding : Holding) (arena : Arena) :
    held ⟨postings.holdings.insert term holding, arena⟩ term = holding := by
  simp [held]

/-- **The arena has taken the steps of the change.** -/
theorem Shift.arena_eq {change : Change} {after : Postings} (h : postings.Shift change after) :
    after.arena = postings.arena.steps (stepsOf change postings after) := by
  have hplaced {term : String} {id : DocId} {old new : Option Group} {holding : Holding}
      {arena : Arena} (hplace : change.place? = some (term, id))
      (hrevises : Holding.Revises id.group old new (postings.held term) holding postings.arena
        arena) :
      arena = postings.arena.steps
        (stepsOf change postings ⟨postings.holdings.insert term holding, arena⟩) := by
    unfold stepsOf
    rw [hplace]
    dsimp only
    rw [held_insert, hrevises.stepsTo_eq]
    exact hrevises.arena
  cases h with
  | stays hplace _ =>
    obtain ⟨⟨term, id⟩, hplace⟩ := Option.ne_none_iff_exists'.1 hplace
    simp [stepsOf, hplace, Holding.stepsTo, swapBlock, swapArray]
  | inserts hplace _ hrevises _ => exact hplaced hplace hrevises
  | erases hplace _ hrevises _ _ => exact hplaced hplace hrevises
  | clears hchange =>
    subst hchange
    -- One term after another gives up what it holds.
    have hfold : ∀ (entries : List (String × Holding)) (arena : Arena),
        (entries.map Prod.snd).foldl (fun arena holding => holding.release arena) arena
          = arena.steps (entries.flatMap fun entry => entry.2.releaseSteps) := by
      intro entries
      induction entries with
      | nil => exact fun arena => rfl
      | cons entry rest ih =>
        intro arena
        rw [List.map_cons, List.foldl_cons, List.flatMap_cons, Arena.steps_append, ih,
          Holding.release_steps]
    exact hfold _ _

end Postings

/-! ## What steps add and take off -/

/-- What a block and an array of each class count for. -/
structure Tariff where
  block : SizeClass → Nat
  array : SizeClass → Nat
  /-- An array without room counts for nothing. -/
  array_zero : array .zero = 0

namespace ArenaStep

/-- What a step adds. -/
def charge (tariff : Tariff) : ArenaStep → Nat
  | .takeBlock c => tariff.block c
  | .moveArray _ c => tariff.array c
  | .giveBlock _ | .giveArray _ => 0

/-- What a step takes off. -/
def refund (tariff : Tariff) : ArenaStep → Nat
  | .giveBlock c => tariff.block c
  | .moveArray c _ | .giveArray c => tariff.array c
  | .takeBlock _ => 0

/-- What several steps add. -/
def charges (tariff : Tariff) (steps : List ArenaStep) : Nat := (steps.map (charge tariff)).sum

/-- What several steps take off. -/
def refunds (tariff : Tariff) (steps : List ArenaStep) : Nat := (steps.map (refund tariff)).sum

variable {tariff : Tariff}

@[simp] theorem charges_append (front back : List ArenaStep) :
    charges tariff (front ++ back) = charges tariff front + charges tariff back := by
  simp [charges]

@[simp] theorem refunds_append (front back : List ArenaStep) :
    refunds tariff (front ++ back) = refunds tariff front + refunds tariff back := by
  simp [refunds]

/-- What a block counts for, nothing without one. -/
def blockWeight (tariff : Tariff) (c : Option SizeClass) : Nat := (c.map tariff.block).getD 0

/-- An exchange takes off no more than the block that goes, and adds the difference. -/
theorem swapBlock_flow (tariff : Tariff) (source target : Option SizeClass) :
    blockWeight tariff target + refunds tariff (swapBlock source target)
        = blockWeight tariff source + charges tariff (swapBlock source target) ∧
      refunds tariff (swapBlock source target) ≤ blockWeight tariff source := by
  unfold swapBlock
  split
  next heq => simp [heq, refunds, charges]
  next hne =>
    cases source <;> cases target <;>
      simp [blockWeight, refunds, charges, refund, charge, Nat.add_comm]

theorem swapArray_flow (tariff : Tariff) (source target : SizeClass) :
    tariff.array target + refunds tariff (swapArray source target)
        = tariff.array source + charges tariff (swapArray source target) ∧
      refunds tariff (swapArray source target) ≤ tariff.array source := by
  unfold swapArray
  split
  next heq => simp [heq, refunds, charges]
  next hne => simp [refunds, charges, refund, charge, Nat.add_comm]

end ArenaStep

/-- What the blocks and the array of a term count for. -/
def Holding.weight (tariff : Tariff) (holding : Holding) : Nat :=
  (holding.groups.map fun group => blockWeight tariff group.blockClass?).sum
    + tariff.array holding.arrayClass

theorem Holding.weight_empty (tariff : Tariff) : Holding.weight tariff {} = 0 := by
  show 0 + tariff.array .zero = 0
  rw [tariff.array_zero]

/-- A revision changes the weight of a term by what its steps add and take off. -/
theorem Holding.Revises.flow {number : UInt16} {old new : Option Group} {before after : Holding}
    {arena arena' : Arena} (h : Revises number old new before after arena arena')
    (tariff : Tariff) :
    after.weight tariff + refunds tariff (stepsTo number before after)
        = before.weight tariff + charges tariff (stepsTo number before after) ∧
      refunds tariff (stepsTo number before after) ≤ before.weight tariff := by
  have hof (place : Option Group) :
      (place.toList.map fun group => blockWeight tariff group.blockClass?).sum
        = blockWeight tariff (place.bind Group.blockClass?) := by
    cases place <;> simp [blockWeight]
  have hgroups := h.groups.sum_map fun group => blockWeight tariff group.blockClass?
  have hold := h.groups.sum_le fun group => blockWeight tariff group.blockClass?
  rw [hof, hof] at hgroups
  rw [hof] at hold
  obtain ⟨hblock, hblockLe⟩ :=
    swapBlock_flow tariff (old.bind Group.blockClass?) (new.bind Group.blockClass?)
  obtain ⟨harray, harrayLe⟩ := swapArray_flow tariff before.arrayClass after.arrayClass
  rw [h.stepsTo_eq, refunds_append, charges_append, weight, weight]
  omega

/-- Giving everything up takes off the weight of a term and adds nothing. -/
theorem Holding.release_flow (holding : Holding) (tariff : Tariff) :
    refunds tariff holding.releaseSteps = holding.weight tariff ∧
      charges tariff holding.releaseSteps = 0 := by
  have hblock (c : Option SizeClass) : refunds tariff (swapBlock c none) = blockWeight tariff c ∧
      charges tariff (swapBlock c none) = 0 := by
    cases c <;> simp [swapBlock, blockWeight, refunds, charges, refund, charge]
  have hgroups (groups : List Group) :
      refunds tariff (groups.flatMap fun group => swapBlock group.blockClass? none)
          = (groups.map fun group => blockWeight tariff group.blockClass?).sum ∧
        charges tariff (groups.flatMap fun group => swapBlock group.blockClass? none) = 0 := by
    induction groups with
    | nil => exact ⟨rfl, rfl⟩
    | cons group rest ih =>
      rw [List.flatMap_cons, refunds_append, charges_append, (hblock _).1, (hblock _).2, ih.1, ih.2]
      simp
  rw [releaseSteps, refunds_append, charges_append, (hgroups _).1, (hgroups _).2]
  exact ⟨rfl, rfl⟩

namespace Postings

variable {postings : Postings}

/-- Giving up all terms takes off their weight and adds nothing. -/
theorem release_all_flow (postings : Postings) (tariff : Tariff) :
    refunds tariff (postings.holdings.toList.flatMap fun entry => entry.2.releaseSteps)
        = postings.sumOver (Holding.weight tariff) ∧
      charges tariff (postings.holdings.toList.flatMap fun entry => entry.2.releaseSteps) = 0 := by
  unfold sumOver
  induction postings.holdings.toList with
  | nil => exact ⟨rfl, rfl⟩
  | cons entry rest ih =>
    obtain ⟨hrefund, hcharge⟩ := entry.2.release_flow tariff
    rw [List.flatMap_cons, refunds_append, charges_append, hrefund, hcharge, ih.1, ih.2]
    simp

/-- **A change alters the weight of all terms by what its steps add and take off.** -/
theorem Shift.flow {change : Change} {after : Postings} (h : postings.Shift change after)
    (tariff : Tariff) :
    after.sumOver (Holding.weight tariff) + refunds tariff (stepsOf change postings after)
        = postings.sumOver (Holding.weight tariff)
          + charges tariff (stepsOf change postings after) ∧
      refunds tariff (stepsOf change postings after)
        ≤ postings.sumOver (Holding.weight tariff) := by
  have hempty := Holding.weight_empty tariff
  have hplaced {term : String} {id : DocId} {old new : Option Group} {holding : Holding}
      {arena : Arena} (hplace : change.place? = some (term, id))
      (hrevises : Holding.Revises id.group old new (postings.held term) holding postings.arena
        arena)
      (hafter : after = ⟨postings.holdings.insert term holding, arena⟩) :
      after.sumOver (Holding.weight tariff) + refunds tariff (stepsOf change postings after)
          = postings.sumOver (Holding.weight tariff)
            + charges tariff (stepsOf change postings after) ∧
        refunds tariff (stepsOf change postings after)
          ≤ postings.sumOver (Holding.weight tariff) := by
    have hsum := sumOver_insert hempty postings term holding arena
    have hle := held_le_sumOver hempty postings term
    have hflow := hrevises.flow tariff
    subst hafter
    unfold stepsOf
    rw [hplace]
    dsimp only
    rw [held_insert]
    omega
  cases h with
  | stays hplace _ =>
    obtain ⟨⟨term, id⟩, hplace⟩ := Option.ne_none_iff_exists'.1 hplace
    simp [stepsOf, hplace, Holding.stepsTo, swapBlock, swapArray, refunds, charges]
  | inserts hplace _ hrevises _ => exact hplaced hplace hrevises rfl
  | erases hplace _ hrevises _ _ => exact hplaced hplace hrevises rfl
  | clears hchange =>
    subst hchange
    obtain ⟨hrefund, hcharge⟩ := postings.release_all_flow tariff
    have hnone : sumOver (Holding.weight tariff) postings.clear = 0 := rfl
    show _ + refunds tariff (postings.holdings.toList.flatMap _)
        = _ + charges tariff (postings.holdings.toList.flatMap _) ∧
      refunds tariff (postings.holdings.toList.flatMap _) ≤ _
    rw [hrefund, hcharge, hnone]
    omega

end Postings
end InvertedIndex
