import InvertedIndex.Proofs.Postings.Accounts

/-!
# `Proofs.Postings.Turnover` — the pools neither lose nor double a buffer

A pool sees only that buffers of its classes are handed out and taken back. Per class, what is out
and what is parked together never become fewer, and grow only where a buffer is handed out while
none is parked. A change of the postings hands out or takes back buffers of a class, but not both,
so that out and parked together are at all times the most that were out after any change so far.

## Contents
- `PoolUse`, `Pool.use`, `Pool.uses`: the uses of a pool;
- `Pool.served`: requests while a buffer was parked;
- `Pool.parkedOf_uses`, `Pool.parkedOf_gives`, `Pool.parkedOf_takes`: how many buffers are parked;
- `ArenaStep.blockUses`, `ArenaStep.arrayUses`: the uses that the steps of the arena consist of;
- `Pool.Balanced`: the invariant; `Balanced.concat`: one change keeps it;
- `Postings.liveBlocks`, `Postings.liveArrays`, `pools_balanced`.
-/

namespace InvertedIndex

/-! ## Uses of a pool -/

/-- A use of a pool: a buffer of a class handed out or taken back. -/
inductive PoolUse where
  | take (c : SizeClass)
  | give (c : SizeClass)
  deriving Repr, DecidableEq

namespace Pool

variable {α : Type} {pool : Pool α} {c : SizeClass}

/-- The pool after a use. -/
def use (pool : Pool α) : PoolUse → Pool α
  | .take c => (pool.take c).2
  | .give c => pool.give c

/-- The pool after several uses. -/
def uses (pool : Pool α) (uses : List PoolUse) : Pool α := uses.foldl use pool

@[simp] theorem uses_nil (pool : Pool α) : pool.uses [] = pool := rfl

@[simp] theorem uses_cons (pool : Pool α) (first : PoolUse) (rest : List PoolUse) :
    pool.uses (first :: rest) = (pool.use first).uses rest := rfl

@[simp] theorem uses_append (pool : Pool α) (front back : List PoolUse) :
    pool.uses (front ++ back) = (pool.uses front).uses back := List.foldl_append

/-- How many buffers are handed out while one of their class is parked. -/
def served (pool : Pool α) : List PoolUse → Nat
  | [] => 0
  | .take c :: rest =>
    (if pool.parked.get c = [] then 0 else 1) + (pool.take c).2.served rest
  | .give c :: rest => (pool.give c).served rest

/-- How many buffers of a class are parked. -/
def parkedOf (pool : Pool α) (c : SizeClass) : Nat := (pool.parked.get c).length

theorem Clean.uses (h : pool.Clean) (uses : List PoolUse) : (pool.uses uses).Clean := by
  induction uses generalizing pool with
  | nil => exact h
  | cons first rest ih =>
    cases first with
    | take c => exact ih (h.take c).2
    | give c => exact ih (h.give c)

theorem reused_give (pool : Pool α) (c : SizeClass) : (pool.give c).reused = pool.reused := by
  unfold give
  split <;> rfl

/-- A pool counts the requests that a parked buffer served. -/
theorem reused_uses (pool : Pool α) (uses : List PoolUse) :
    (pool.uses uses).reused = pool.reused + pool.served uses := by
  induction uses generalizing pool with
  | nil => rfl
  | cons first rest ih =>
    rw [uses_cons, ih]
    cases first with
    | take c =>
      show (pool.take c).2.reused + _ = _ + ((if _ then 0 else 1) + _)
      rw [← Nat.add_assoc]
      refine congrArg (· + _) ?_
      unfold take
      split
      next buffer more hparked => simp [hparked]
      next hparked => simp [hparked]
    | give c => exact congrArg (· + (pool.give c).served rest) (reused_give pool c)

/-! ## How many buffers are parked -/

/-- A use parks one buffer more or less of its class. -/
theorem parkedOf_use (pool : Pool α) (hc : c ≠ .zero) (u : PoolUse) : (pool.use u).parkedOf c
    = pool.parkedOf c + (if u == .give c then 1 else 0) - (if u == .take c then 1 else 0) := by
  cases u with
  | take d =>
    show (pool.take d).2.parkedOf c = _
    unfold take parkedOf
    by_cases heq : d = c
    · subst heq
      split
      next buffer rest hparked => simp [parked_set, hparked]
      next hparked => simp [hparked]
    · split
      · simp [parked_set, heq]
      · simp [heq]
  | give d =>
    show (pool.give d).parkedOf c = _
    unfold give parkedOf
    by_cases heq : d = c
    · subst heq
      simp [parked_set, hc]
    · split
      · simp [heq]
      · simp [parked_set, heq]

/-- What is out and what is parked never become fewer together. -/
theorem parkedOf_uses (hc : c ≠ .zero) (uses : List PoolUse) : pool.parkedOf c
    + uses.count (.give c) ≤ (pool.uses uses).parkedOf c + uses.count (.take c) := by
  induction uses generalizing pool with
  | nil => exact le_refl _
  | cons first rest ih =>
    have hrest : (pool.use first).parkedOf c + rest.count (.give c)
      ≤ ((pool.use first).uses rest).parkedOf c + rest.count (.take c) := ih
    rw [parkedOf_use pool hc] at hrest
    rw [uses_cons, List.count_cons, List.count_cons]
    omega

/-- Buffers that are only taken back are parked. -/
theorem parkedOf_gives (hc : c ≠ .zero) {uses : List PoolUse} (h : uses.count (.take c) = 0) :
    (pool.uses uses).parkedOf c = pool.parkedOf c + uses.count (.give c) := by
  induction uses generalizing pool with
  | nil => rfl
  | cons first rest ih =>
    rw [List.count_cons] at h
    have hrest : ((pool.use first).uses rest).parkedOf c
      = (pool.use first).parkedOf c + rest.count (.give c) := ih (by omega)
    rw [parkedOf_use pool hc] at hrest
    rw [uses_cons, List.count_cons]
    omega

/-- Buffers that are only handed out are parked ones as long as there are any. -/
theorem parkedOf_takes (hc : c ≠ .zero) {uses : List PoolUse} (h : uses.count (.give c) = 0) :
    (pool.uses uses).parkedOf c = pool.parkedOf c - uses.count (.take c) := by
  induction uses generalizing pool with
  | nil => rfl
  | cons first rest ih =>
    rw [List.count_cons] at h
    have hrest : ((pool.use first).uses rest).parkedOf c
      = (pool.use first).parkedOf c - rest.count (.take c) := ih (by omega)
    rw [parkedOf_use pool hc] at hrest
    rw [uses_cons, List.count_cons]
    omega

/-! ## Balance -/

/-- After a run of changes the pool is what its uses made of a new one, and accounts for the buffers
    that are `live` after each part of the run. -/
structure Balanced (unit : Nat) (pool : Pool α) (uses : List PoolUse)
    (live : List Change → SizeClass → Nat) (changes : List Change) : Prop where
  made : pool = (Pool.new unit).uses uses
  /-- Whatever is live was handed out and not taken back. -/
  out : ∀ c ≠ .zero, live changes c + uses.count (.give c) = uses.count (.take c)
  /-- At no point was more taken back than handed out. -/
  matched : ∀ c ≠ .zero, ∀ done, done <+: uses → done.count (.give c) ≤ done.count (.take c)
  /-- What is live and what is parked are together the most that was live so far. -/
  peak : ∀ c ≠ .zero, IsGreatest {n | ∃ done, done <+: changes ∧ live done c = n}
    (live changes c + (pool.parked.get c).length)
  /-- Nor was more out while a change was made. -/
  within : ∀ c ≠ .zero, ∀ done, done <+: uses →
    done.count (.take c) - done.count (.give c) ≤ live changes c + (pool.parked.get c).length
  empty : ∀ c, ∀ buffer ∈ pool.parked.get c, buffer = []
  reused : pool.reused = (Pool.new unit : Pool α).served uses

/-- A change that hands out or takes back buffers of a class, but not both, keeps the balance. -/
theorem Balanced.concat {unit : Nat} {uses more : List PoolUse}
    {live : List Change → SizeClass → Nat} {changes : List Change}
    (h : Balanced unit pool uses live changes) (change : Change)
    (hlive : ∀ c ≠ .zero, live (changes ++ [change]) c + more.count (.give c)
      = live changes c + more.count (.take c))
    (hgives : ∀ c ≠ .zero, more.count (.give c) ≤ live changes c)
    (honce : ∀ c ≠ .zero, more.count (.take c) = 0 ∨ more.count (.give c) = 0) :
    Balanced unit (pool.uses more) (uses ++ more) live (changes ++ [change]) := by
  have hmade : pool.uses more = (Pool.new unit).uses (uses ++ more) := by
    rw [uses_append, ← h.made]
  have hout : ∀ c ≠ .zero, live (changes ++ [change]) c + (uses ++ more).count (.give c)
      = (uses ++ more).count (.take c) := by
    intro c hc
    have hbefore := h.out c hc
    have hchange := hlive c hc
    rw [List.count_append, List.count_append]
    omega
  have hmatched : ∀ c ≠ .zero, ∀ done, done <+: uses ++ more →
      done.count (.give c) ≤ done.count (.take c) := by
    intro c hc done hdone
    rcases List.prefix_or_prefix_of_prefix hdone (List.prefix_append uses more) with
      hearlier | ⟨part, rfl⟩
    · exact h.matched c hc done hearlier
    · -- What part of the change takes back was live before.
      have hpart := (List.prefix_append_right_inj uses).1 hdone
      have hbefore := h.out c hc
      have hlater := hgives c hc
      have hfew := hpart.sublist.count_le (.give c)
      rw [List.count_append, List.count_append]
      omega
  refine ⟨hmade, hout, hmatched, ?_, ?_, ?_, ?_⟩
  · intro c hc
    have hsum : live (changes ++ [change]) c + (pool.uses more).parkedOf c
        = max (live changes c + pool.parkedOf c) (live (changes ++ [change]) c) := by
      have hchange := hlive c hc
      rcases honce c hc with htakes | hgives
      · rw [parkedOf_gives hc htakes]
        omega
      · rw [parkedOf_takes hc hgives]
        omega
    obtain ⟨⟨done, hdone, hreached⟩, hupper⟩ := h.peak c hc
    show IsGreatest _ (live (changes ++ [change]) c + (pool.uses more).parkedOf c)
    rw [hsum]
    refine ⟨?_, ?_⟩
    · rcases max_choice (live changes c + pool.parkedOf c) (live (changes ++ [change]) c) with
        hmax | hmax
      · exact ⟨done, hdone.trans (List.prefix_append _ _), hreached.trans hmax.symm⟩
      · exact ⟨_, List.prefix_rfl, hmax.symm⟩
    · rintro n ⟨earlier, hearlier, rfl⟩
      rcases List.prefix_concat_iff.1 hearlier with rfl | hbefore
      · exact le_max_right _ _
      · exact le_max_of_le_left (hupper ⟨earlier, hbefore, rfl⟩)
  · rintro c hc done ⟨rest, hrest⟩
    have hnow := hout c hc
    have hthen := hmatched c hc done ⟨rest, hrest⟩
    have hparked : ((Pool.new unit : Pool α).uses done).parkedOf c + rest.count (.give c)
      ≤ (((Pool.new unit).uses done).uses rest).parkedOf c + rest.count (.take c) :=
      parkedOf_uses hc rest
    rw [← uses_append, hrest, ← hmade] at hparked
    rw [← hrest, List.count_append, List.count_append] at hnow
    show _ ≤ live (changes ++ [change]) c + (pool.uses more).parkedOf c
    omega
  · rw [hmade]
    exact (new_clean unit).uses _
  · rw [hmade, reused_uses]
    exact Nat.zero_add _

theorem balanced_nil (unit : Nat) {live : List Change → SizeClass → Nat}
    (hlive : ∀ c ≠ .zero, live [] c = 0) :
    Balanced unit (Pool.new unit : Pool α) [] live [] := by
  have hparked (c : SizeClass) : ((Pool.new unit : Pool α).parked.get c).length = 0 := by
    simp [new, Vector.get]
  refine ⟨rfl, ?_, ?_, ?_, ?_, new_clean unit, rfl⟩
  · intro c hc
    rw [hlive c hc]
    rfl
  · rintro c hc done hdone
    rw [List.prefix_nil.1 hdone]
    exact le_refl _
  · intro c hc
    rw [hparked]
    refine ⟨⟨[], List.prefix_rfl, rfl⟩, ?_⟩
    rintro n ⟨done, hdone, rfl⟩
    rw [List.prefix_nil.1 hdone]
    exact le_refl _
  · rintro c hc done hdone
    rw [List.prefix_nil.1 hdone]
    exact Nat.zero_le _

end Pool

/-! ## The pools of the arena -/

namespace ArenaStep

/-- The uses of the pool of blocks that a step consists of. -/
def blockUses : ArenaStep → List PoolUse
  | .takeBlock c => [.take c]
  | .giveBlock c => [.give c]
  | .moveArray _ _ | .giveArray _ => []

/-- The uses of the pool of arrays that a step consists of. An array moves to a new buffer before
    the old one goes back. -/
def arrayUses : ArenaStep → List PoolUse
  | .moveArray source target => [.take target, .give source]
  | .giveArray c => [.give c]
  | .takeBlock _ | .giveBlock _ => []

end ArenaStep

open ArenaStep

namespace Tariff

/-- The blocks of a class count for one each. -/
def blocksOf (c : SizeClass) : Tariff := ⟨fun d => if d = c then 1 else 0, fun _ => 0, rfl⟩

/-- The arrays of a class with room count for one each. -/
def arraysOf (c : SizeClass) (hc : c ≠ .zero) : Tariff :=
  ⟨fun _ => 0, fun d => if d = c then 1 else 0, if_neg hc.symm⟩

end Tariff

namespace ArenaStep

/-- The uses of a class of blocks are what its tariff counts. -/
theorem count_blockUses (c : SizeClass) (steps : List ArenaStep) :
    (steps.flatMap blockUses).count (.take c) = charges (.blocksOf c) steps ∧
      (steps.flatMap blockUses).count (.give c) = refunds (.blocksOf c) steps := by
  induction steps with
  | nil => exact ⟨rfl, rfl⟩
  | cons first rest ih =>
    have hcharges : charges (.blocksOf c) (first :: rest)
        = first.charge (.blocksOf c) + charges (.blocksOf c) rest := rfl
    have hrefunds : refunds (.blocksOf c) (first :: rest)
        = first.refund (.blocksOf c) + refunds (.blocksOf c) rest := rfl
    rw [List.flatMap_cons, List.count_append, List.count_append, ih.1, ih.2, hcharges, hrefunds]
    cases first <;> simp [blockUses, charge, refund, Tariff.blocksOf, List.count_singleton]

/-- The uses of a class of arrays are what its tariff counts. -/
theorem count_arrayUses (c : SizeClass) (hc : c ≠ .zero) (steps : List ArenaStep) :
    (steps.flatMap arrayUses).count (.take c) = charges (.arraysOf c hc) steps ∧
      (steps.flatMap arrayUses).count (.give c) = refunds (.arraysOf c hc) steps := by
  induction steps with
  | nil => exact ⟨rfl, rfl⟩
  | cons first rest ih =>
    have hcharges : charges (.arraysOf c hc) (first :: rest)
        = first.charge (.arraysOf c hc) + charges (.arraysOf c hc) rest := rfl
    have hrefunds : refunds (.arraysOf c hc) (first :: rest)
        = first.refund (.arraysOf c hc) + refunds (.arraysOf c hc) rest := rfl
    rw [List.flatMap_cons, List.count_append, List.count_append, ih.1, ih.2, hcharges, hrefunds]
    cases first <;> simp [arrayUses, charge, refund, Tariff.arraysOf, List.count_cons]

/-- A change hands out or takes back blocks of a class, but not both. -/
theorem blocks_once (c : SizeClass) (source target : Option SizeClass) (before after : SizeClass) :
    charges (.blocksOf c) (swapBlock source target ++ swapArray before after) = 0 ∨
      refunds (.blocksOf c) (swapBlock source target ++ swapArray before after) = 0 := by
  have harray : charges (.blocksOf c) (swapArray before after) = 0 ∧
      refunds (.blocksOf c) (swapArray before after) = 0 := by
    unfold swapArray
    split <;> exact ⟨rfl, rfl⟩
  rw [charges_append, refunds_append, harray.1, harray.2]
  unfold swapBlock
  split
  · exact .inl rfl
  next hne =>
    -- The block that is handed out and the one that is taken back are of different classes.
    by_cases htarget : target = some c
    · right
      cases source with
      | none => cases target <;> rfl
      | some d =>
        have hd : d ≠ c := fun heq => hne (by rw [htarget, heq])
        cases target <;> simp [refunds, refund, Tariff.blocksOf, hd]
    · left
      cases target with
      | none => cases source <;> rfl
      | some d =>
        have hd : d ≠ c := fun heq => htarget (by rw [heq])
        cases source <;> simp [charges, charge, Tariff.blocksOf, hd]

/-- A change hands out or takes back arrays of a class, but not both. -/
theorem arrays_once (c : SizeClass) (hc : c ≠ .zero) (source target : Option SizeClass)
    (before after : SizeClass) :
    charges (.arraysOf c hc) (swapBlock source target ++ swapArray before after) = 0 ∨
      refunds (.arraysOf c hc) (swapBlock source target ++ swapArray before after) = 0 := by
  have hblock : charges (.arraysOf c hc) (swapBlock source target) = 0 ∧
      refunds (.arraysOf c hc) (swapBlock source target) = 0 := by
    unfold swapBlock
    split
    · exact ⟨rfl, rfl⟩
    · cases source <;> cases target <;> exact ⟨rfl, rfl⟩
  rw [charges_append, refunds_append, hblock.1, hblock.2]
  unfold swapArray
  split
  · exact .inl rfl
  next hne =>
    by_cases hafter : after = c
    · right
      have hbefore : before ≠ c := fun heq => hne (heq.trans hafter.symm)
      simp [refunds, refund, Tariff.arraysOf, hbefore]
    · left
      simp [charges, charge, Tariff.arraysOf, hafter]

end ArenaStep

namespace Arena

theorem steps_blocks (arena : Arena) (steps : List ArenaStep) :
    (arena.steps steps).blocks = arena.blocks.uses (steps.flatMap blockUses) := by
  induction steps generalizing arena with
  | nil => rfl
  | cons first rest ih =>
    rw [steps_cons, ih, List.flatMap_cons, Pool.uses_append]
    cases first <;> rfl

theorem steps_arrays (arena : Arena) (steps : List ArenaStep) :
    (arena.steps steps).arrays = arena.arrays.uses (steps.flatMap arrayUses) := by
  induction steps generalizing arena with
  | nil => rfl
  | cons first rest ih =>
    rw [steps_cons, ih, List.flatMap_cons, Pool.uses_append]
    cases first <;> rfl

end Arena

namespace Postings

/-- How many blocks of a class the terms have. -/
def liveBlocks (postings : Postings) (c : SizeClass) : Nat :=
  postings.sumOver fun holding => holding.groups.countP fun group => group.blockClass? = some c

/-- How many terms have an array of a class. -/
def liveArrays (postings : Postings) (c : SizeClass) : Nat :=
  postings.sumOver fun holding => if holding.arrayClass = c then 1 else 0

theorem liveBlocks_eq (postings : Postings) (c : SizeClass) :
    postings.liveBlocks c = postings.sumOver (Holding.weight (.blocksOf c)) := by
  refine congrArg (sumOver · postings) (funext fun holding => ?_)
  have hgroup (group : Group) : blockWeight (.blocksOf c) group.blockClass?
      = if group.blockClass? = some c then 1 else 0 := by
    cases group.blockClass? <;> simp [blockWeight, Tariff.blocksOf]
  show _ = _ + 0
  simp only [hgroup]
  induction holding.groups with
  | nil => rfl
  | cons group rest ih =>
    rw [List.countP_cons, ih, List.map_cons, List.sum_cons]
    simp only [decide_eq_true_eq]
    omega

theorem liveArrays_eq (postings : Postings) (c : SizeClass) (hc : c ≠ .zero) :
    postings.liveArrays c = postings.sumOver (Holding.weight (.arraysOf c hc)) := by
  refine congrArg (sumOver · postings) (funext fun holding => ?_)
  have hgroup (group : Group) : blockWeight (.arraysOf c hc) group.blockClass? = 0 := by
    cases group.blockClass? <;> rfl
  unfold Holding.weight
  simp only [hgroup]
  simp [Tariff.arraysOf]

/-- A tariff that every exchange of a block and an array either adds to or takes off from is added to
    or taken off from by every change. -/
theorem stepsOf_once {tariff : Tariff} (h : ∀ source target before after,
      charges tariff (swapBlock source target ++ swapArray before after) = 0 ∨
        refunds tariff (swapBlock source target ++ swapArray before after) = 0)
    (change : Change) (before after : Postings) :
    charges tariff (stepsOf change before after) = 0 ∨
      refunds tariff (stepsOf change before after) = 0 := by
  unfold stepsOf
  split
  · exact h _ _ _ _
  · exact .inl (before.release_all_flow tariff).2

/-- **The pools neither lose nor double a buffer**, in any run of changes. -/
theorem pools_balanced (changes : List Change) :
    Pool.Balanced blockUnit (run changes).arena.blocks
        ((empty.history changes).flatMap blockUses) (fun done c => (run done).liveBlocks c) changes ∧
      Pool.Balanced 1 (run changes).arena.arrays
        ((empty.history changes).flatMap arrayUses) (fun done c => (run done).liveArrays c) changes := by
  induction changes using List.reverseRecOn with
  | nil => exact ⟨Pool.balanced_nil _ fun _ _ => rfl, Pool.balanced_nil _ fun _ _ => rfl⟩
  | append_singleton changes change ih =>
    obtain ⟨hblocks, harrays⟩ := ih
    have hkept := kept_run changes
    obtain ⟨ledger, htracks⟩ := hkept.tracks
    have hshift := htracks.shift hkept.regular change
    have hhistory : empty.history (changes ++ [change]) = empty.history changes
        ++ stepsOf change (run changes) ((run changes).apply change) := by
      rw [history_append]
      simp [history, run]
    rw [run_concat, hhistory, List.flatMap_append, List.flatMap_append, hshift.arena_eq,
      Arena.steps_blocks, Arena.steps_arrays]
    constructor
    · have hflow (c : SizeClass) := hshift.flow (.blocksOf c)
      simp only [← liveBlocks_eq] at hflow
      refine hblocks.concat change ?_ ?_ ?_
      · intro c _
        rw [(count_blockUses c _).1, (count_blockUses c _).2, run_concat]
        exact (hflow c).1
      · intro c _
        rw [(count_blockUses c _).2]
        exact (hflow c).2
      · intro c _
        rw [(count_blockUses c _).1, (count_blockUses c _).2]
        exact stepsOf_once (blocks_once c) change _ _
    · have hflow (c : SizeClass) (hc : c ≠ .zero) := hshift.flow (.arraysOf c hc)
      simp only [← liveArrays_eq] at hflow
      refine harrays.concat change ?_ ?_ ?_
      · intro c hc
        rw [(count_arrayUses c hc _).1, (count_arrayUses c hc _).2, run_concat]
        exact (hflow c hc).1
      · intro c hc
        rw [(count_arrayUses c hc _).2]
        exact (hflow c hc).2
      · intro c hc
        rw [(count_arrayUses c hc _).1, (count_arrayUses c hc _).2]
        exact stepsOf_once (arrays_once c hc) change _ _

end Postings
end InvertedIndex
