import InvertedIndex.Postings.Group
import InvertedIndex.Proofs.Outcome
import Mathlib.Algebra.Ring.Nat
import Mathlib.Data.List.FinRange
import Mathlib.Order.Bounds.Basic
import Mathlib.Order.Fin.Basic

/-!
# `Proofs.Postings.Arena` — what terms ask of the arena

The terms share one pool of blocks and one of arrays of groups. Whatever is parked there is empty,
and the class found for a size is the smallest with room. A change of a term comes down to a few
steps of the arena: a block in exchange for the one that a group had, an array moved to another
class. Handing out and taking back is spelled out here once, as such steps; what becomes of bodies
and terms is said in terms of them.

## Contents
- `Pool.Clean`, `Arena.Clean`: parked buffers are empty, so a block starts out empty;
- `SizeClass.Snug`: the smallest class with room; `Pool.classFor?_snug`; `Pool.extend_snug`,
  `Pool.reduce_snug`: the class for more elements, and for fewer;
- `ArenaStep`, `Arena.step`, `Arena.steps`: what the arena is asked for;
- `ArenaStep.swapBlock`, `ArenaStep.swapArray`: one block or array in exchange for another;
- `Clean.takeBlock_eq`, `Clean.moveBlock_eq`, `Clean.moveArray_eq`: requests as steps.
-/

namespace InvertedIndex

/-! ## Buffers start out empty -/

/-- Every parked buffer is empty. -/
def Pool.Clean {α : Type} (pool : Pool α) : Prop :=
  ∀ c, ∀ buffer ∈ pool.parked.get c, buffer = []

namespace Pool

variable {α : Type} {pool : Pool α}

theorem new_clean (unit : Nat) : (Pool.new unit : Pool α).Clean := by
  intro c buffer hbuffer
  simp [Pool.new, Vector.get] at hbuffer

/-- Changing what is parked under one class leaves the others as they are. -/
theorem parked_set (pool : Pool α) (c other : SizeClass) (buffers : List (List α)) :
    (pool.parked.set c.val buffers c.isLt).get other
      = if c = other then buffers else pool.parked.get other := by
  show (pool.parked.set c.val buffers c.isLt)[other.val] = _
  rw [Vector.getElem_set]
  by_cases heq : c = other
  · simp [heq]
  · rw [if_neg heq, if_neg fun hval => heq (Fin.ext hval)]
    rfl

/-- Changing what is parked under one class to empty buffers keeps a pool clean. -/
theorem Clean.set (h : pool.Clean) (c : SizeClass) {buffers : List (List α)} (reused : Nat)
    (hbuffers : ∀ buffer ∈ buffers, buffer = []) :
    Pool.Clean { pool with parked := pool.parked.set c.val buffers c.isLt, reused } := by
  intro other buffer hbuffer
  rw [parked_set] at hbuffer
  split at hbuffer
  · exact hbuffers buffer hbuffer
  · exact h other buffer hbuffer

theorem Clean.take (h : pool.Clean) (c : SizeClass) :
    (pool.take c).1 = [] ∧ (pool.take c).2.Clean := by
  unfold Pool.take
  split
  next buffer rest hparked =>
    have hclean := h c
    rw [hparked] at hclean
    obtain ⟨hbuffer, hrest⟩ := List.forall_mem_cons.1 hclean
    exact ⟨hbuffer, h.set c _ hrest⟩
  · exact ⟨rfl, h⟩

theorem Clean.give (h : pool.Clean) (c : SizeClass) : (pool.give c).Clean := by
  unfold Pool.give
  split
  · exact h
  · exact h.set c _ (List.forall_mem_cons.2 ⟨rfl, h c⟩)

@[simp] theorem take_unit (pool : Pool α) (c : SizeClass) : (pool.take c).2.unit = pool.unit := by
  unfold Pool.take
  split <;> rfl

@[simp] theorem give_unit (pool : Pool α) (c : SizeClass) : (pool.give c).unit = pool.unit := by
  unfold Pool.give
  split <;> rfl

end Pool

/-- Every parked block and array is empty, and sizes of blocks are counted in their unit. -/
structure Arena.Clean (arena : Arena) : Prop where
  blocks : arena.blocks.Clean
  arrays : arena.arrays.Clean
  unit : arena.blocks.unit = blockUnit

namespace Arena

variable {arena : Arena}

theorem new_clean : Arena.new.Clean := ⟨Pool.new_clean _, Pool.new_clean _, rfl⟩

theorem Clean.takeBlock (h : arena.Clean) (c : SizeClass) :
    (arena.takeBlock c).1 = [] ∧ (arena.takeBlock c).2.Clean :=
  ⟨(h.blocks.take c).1, (h.blocks.take c).2, h.arrays, (Pool.take_unit _ c).trans h.unit⟩

theorem Clean.giveBlock (h : arena.Clean) (c : SizeClass) : (arena.giveBlock c).Clean :=
  ⟨h.blocks.give c, h.arrays, (Pool.give_unit _ c).trans h.unit⟩

theorem Clean.moveArray (h : arena.Clean) (source target : SizeClass) (groups : List Group) :
    (arena.moveArray source target groups).1 = groups ∧
      (arena.moveArray source target groups).2.Clean := by
  obtain ⟨hbuffer, hclean⟩ := h.arrays.take target
  refine ⟨?_, h.blocks, hclean.give source, h.unit⟩
  show (arena.arrays.take target).1 ++ groups = groups
  rw [hbuffer, List.nil_append]

theorem Clean.giveArray (h : arena.Clean) (c : SizeClass) : (arena.giveArray c).Clean :=
  ⟨h.blocks, h.arrays.give c, h.unit⟩

end Arena

/-! ## The smallest class with room -/

/-- The class is the smallest with room for so many elements, of which a unit has `unit`. -/
def SizeClass.Snug (unit count : Nat) (c : SizeClass) : Prop :=
  IsLeast {c : SizeClass | count ≤ c.units * unit} c

namespace SizeClass

theorem least?_eq_some {units : Nat} {c : SizeClass} (h : least? units = some c) :
    IsLeast {c : SizeClass | units ≤ c.units} c := by
  obtain ⟨hroom, front, back, hsplit, hfront⟩ := List.find?_eq_some_iff_append.1 h
  refine ⟨of_decide_eq_true hroom, ?_⟩
  intro other (hother : units ≤ other.units)
  -- The classes are searched in order, so one with room that comes first would have been found.
  have hmem : other ∈ front ++ c :: back := hsplit ▸ List.mem_finRange other
  have hsorted := List.pairwise_lt_finRange 43
  rw [hsplit] at hsorted
  rcases List.mem_append.1 hmem with hbefore | hafter
  · have hsmall := hfront other hbefore
    simp only [Bool.not_eq_true', decide_eq_false_iff_not] at hsmall
    exact absurd hother hsmall
  · rcases List.mem_cons.1 hafter with rfl | hlater
    · exact le_refl _
    · exact le_of_lt ((List.pairwise_cons.1 (List.pairwise_append.1 hsorted).2.1).1 other hlater)

/-- The class without room suits nothing but nothing. -/
theorem snug_zero (unit : Nat) : Snug unit 0 .zero := ⟨Nat.zero_le _, fun _ _ => Fin.zero_le _⟩

variable {unit count count' : Nat} {c : SizeClass}

/-- With more to hold, the smallest class stays the smallest as long as it has room. -/
theorem Snug.grow (h : Snug unit count c) (hle : count ≤ count') (hroom : count' ≤ c.units * unit) :
    Snug unit count' c :=
  ⟨hroom, fun _ hother => h.2 (hle.trans hother)⟩

end SizeClass

namespace Pool

variable {α : Type} {pool : Pool α} {count : Nat} {c : SizeClass}

/-- A count rounded up to units fits into a number of units if its elements do. -/
theorem rounded_le (hunit : 0 < pool.unit) (units : Nat) :
    (count + pool.unit - 1) / pool.unit ≤ units ↔ count ≤ units * pool.unit := by
  rw [Nat.div_le_iff_le_mul_add_pred hunit, Nat.mul_comm pool.unit]
  omega

/-- The class that a pool finds is the smallest with room. -/
theorem classFor?_snug (hunit : 0 < pool.unit) (h : pool.classFor? count = some c) :
    SizeClass.Snug pool.unit count c := by
  have hleast := SizeClass.least?_eq_some h
  simp only [rounded_le hunit] at hleast
  exact hleast

/-- There is one if some class has room. -/
theorem classFor?_isSome (hunit : 0 < pool.unit) (hroom : count ≤ c.units * pool.unit) :
    (pool.classFor? count).isSome := by
  rw [classFor?, SizeClass.least?, List.find?_isSome]
  exact ⟨c, List.mem_finRange c, decide_eq_true ((rounded_le hunit c.units).2 hroom)⟩

/-- The class in place of `c` for more elements: the smallest with room, once `c` has none. -/
def extend (pool : Pool α) (count : Nat) (c : SizeClass) : SizeClass :=
  if count ≤ pool.capacity c then c else (pool.classFor? count).getD c

/-- The class in place of `c` for fewer elements: a smaller one as soon as that has room. -/
def reduce (pool : Pool α) (count : Nat) (c : SizeClass) : SizeClass :=
  match pool.classFor? count with
  | some target => if target < c then target else c
  | none => c

/-- A class stays the smallest with room when it is extended, if there is one with room at all. -/
theorem extend_snug {before : Nat} {large : SizeClass} (hunit : 0 < pool.unit)
    (hsnug : SizeClass.Snug pool.unit before c) (hmore : before ≤ count)
    (hlarge : count ≤ large.units * pool.unit) :
    SizeClass.Snug pool.unit count (pool.extend count c) := by
  unfold extend
  split
  next hroom => exact hsnug.grow hmore hroom
  next hfull =>
    obtain ⟨target, htarget⟩ := Option.isSome_iff_exists.1 (classFor?_isSome hunit hlarge)
    rw [htarget]
    exact classFor?_snug hunit htarget

/-- A class with room is reduced to the smallest. -/
theorem reduce_snug (hunit : 0 < pool.unit) (hroom : count ≤ c.units * pool.unit) :
    SizeClass.Snug pool.unit count (pool.reduce count c) := by
  obtain ⟨target, htarget⟩ := Option.isSome_iff_exists.1 (classFor?_isSome hunit hroom)
  have hsnug := classFor?_snug hunit htarget
  simp only [reduce, htarget]
  split
  next hlt => exact hsnug
  next hge =>
    have heq : target = c := le_antisymm (hsnug.2 hroom) (not_lt.1 hge)
    exact heq ▸ hsnug

end Pool

namespace Arena

variable {arena : Arena} {term : String} {size : Nat} {c : SizeClass}

/-- The only failure to find a class is that there is none so large. -/
theorem blockClass_error {fault : Fault} (h : arena.blockClass term size = .error fault) :
    fault = .postingTooLarge term size := by
  unfold blockClass at h
  split at h
  · cases h
  · cases h
    rfl

theorem Clean.unit_pos (h : arena.Clean) : 0 < arena.blocks.unit := by
  rw [h.unit]
  decide

/-- The class found for a block is the smallest with room. -/
theorem Clean.blockClass_snug (h : arena.Clean) (hclass : arena.blockClass term size = .ok c) :
    SizeClass.Snug blockUnit size c := by
  unfold blockClass at hclass
  split at hclass
  next found hfound =>
    cases hclass
    rw [← h.unit]
    exact Pool.classFor?_snug h.unit_pos hfound
  · cases hclass

/-- The largest class of blocks has room for fewer than 2³² bytes. -/
theorem Clean.size_lt (h : arena.Clean) (hclass : arena.blockClass term size = .ok c) :
    size < 2 ^ 32 := by
  have hroom : size ≤ c.units * 10 := (h.blockClass_snug hclass).1
  have hlargest : ∀ c : SizeClass, c.units ≤ 16777216 := by decide
  have hbound := hlargest c
  omega

end Arena

/-! ## Steps of the arena -/

/-- A step of the arena: a block handed out or taken back, an array moved to another class or taken
    back. -/
inductive ArenaStep where
  | takeBlock (c : SizeClass)
  | giveBlock (c : SizeClass)
  | moveArray (source target : SizeClass)
  | giveArray (c : SizeClass)
  deriving Repr, DecidableEq

namespace ArenaStep

/-- A block of one class in exchange for one of another; `none` stands for no block. The new block
    is handed out before the old one is taken back. -/
def swapBlock (source target : Option SizeClass) : List ArenaStep :=
  if source = target then []
  else (target.map takeBlock).toList ++ (source.map giveBlock).toList

/-- An array of one class in exchange for one of another. -/
def swapArray (source target : SizeClass) : List ArenaStep :=
  if source = target then [] else [.moveArray source target]

@[simp] theorem swapBlock_self (c : Option SizeClass) : swapBlock c c = [] := if_pos rfl

@[simp] theorem swapArray_self (c : SizeClass) : swapArray c c = [] := if_pos rfl

end ArenaStep

open ArenaStep

namespace Arena

variable {arena : Arena}

/-- The arena after a step. -/
def step (arena : Arena) : ArenaStep → Arena
  | .takeBlock c => (arena.takeBlock c).2
  | .giveBlock c => arena.giveBlock c
  | .moveArray source target => (arena.moveArray source target []).2
  | .giveArray c => arena.giveArray c

/-- The arena after several steps. -/
def steps (arena : Arena) (steps : List ArenaStep) : Arena := steps.foldl step arena

@[simp] theorem steps_nil (arena : Arena) : arena.steps [] = arena := rfl

@[simp] theorem steps_cons (arena : Arena) (first : ArenaStep) (rest : List ArenaStep) :
    arena.steps (first :: rest) = (arena.step first).steps rest := rfl

@[simp] theorem steps_append (arena : Arena) (front back : List ArenaStep) :
    arena.steps (front ++ back) = (arena.steps front).steps back := List.foldl_append

/-- Sizes are counted in the units of blocks and of arrays. -/
structure Scaled (arena : Arena) : Prop where
  blocks : arena.blocks.unit = blockUnit
  arrays : arena.arrays.unit = 1

theorem new_scaled : Arena.new.Scaled := ⟨rfl, rfl⟩

theorem Scaled.step (h : arena.Scaled) (s : ArenaStep) : (arena.step s).Scaled := by
  cases s with
  | takeBlock c => exact ⟨(Pool.take_unit _ c).trans h.blocks, h.arrays⟩
  | giveBlock c => exact ⟨(Pool.give_unit _ c).trans h.blocks, h.arrays⟩
  | moveArray source target =>
    exact ⟨h.blocks, ((Pool.give_unit _ source).trans (Pool.take_unit _ target)).trans h.arrays⟩
  | giveArray c => exact ⟨h.blocks, (Pool.give_unit _ c).trans h.arrays⟩

theorem Scaled.steps (h : arena.Scaled) (steps : List ArenaStep) : (arena.steps steps).Scaled := by
  induction steps generalizing arena with
  | nil => exact h
  | cons first rest ih => exact ih (h.step first)

theorem Clean.step (h : arena.Clean) (s : ArenaStep) : (arena.step s).Clean := by
  cases s with
  | takeBlock c => exact (h.takeBlock c).2
  | giveBlock c => exact h.giveBlock c
  | moveArray source target => exact (h.moveArray source target []).2
  | giveArray c => exact h.giveArray c

theorem Clean.steps (h : arena.Clean) (steps : List ArenaStep) : (arena.steps steps).Clean := by
  induction steps generalizing arena with
  | nil => exact h
  | cons first rest ih => exact ih (h.step first)

/-! ## Requests as steps -/

/-- A block handed out is empty. -/
theorem Clean.takeBlock_eq (h : arena.Clean) (c : SizeClass) :
    arena.takeBlock c = ([], arena.steps (swapBlock none (some c))) :=
  Prod.ext (h.takeBlock c).1 rfl

/-- A block moved to another class is the block of that class with the same bytes. -/
theorem Clean.moveBlock_eq (h : arena.Clean) {source target : SizeClass} (hne : target ≠ source)
    (bytes : Bytes) : arena.moveBlock source target bytes
      = (.block target bytes, arena.steps (swapBlock (some source) (some target))) := by
  have hswap : swapBlock (some source) (some target) = [.takeBlock target, .giveBlock source] :=
    if_neg fun heq => hne (Option.some.inj heq).symm
  unfold moveBlock
  rw [h.takeBlock_eq, hswap]
  rfl

/-- An array moved to another class holds the same groups. -/
theorem Clean.moveArray_eq (h : arena.Clean) {source target : SizeClass} (hne : target ≠ source)
    (groups : List Group) :
    arena.moveArray source target groups = (groups, arena.steps (swapArray source target)) := by
  refine Prod.ext (h.moveArray source target groups).1 ?_
  rw [swapArray, if_neg hne.symm]
  rfl

end Arena
end InvertedIndex
