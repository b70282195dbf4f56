import InvertedIndex.Postings.SizeClass

/-!
# `InvertedIndex.Postings.Pool` — buffers that are used again

A pool hands out empty buffers by size class. A buffer given back is emptied and parked under its
class, and the next request of that class gets it. The class of size zero needs no storage, so its
buffers are never parked.

## Contents
- `Pool`, `Pool.new`;
- `Pool.classFor?`, `Pool.capacity`: sizes in elements;
- `Pool.take`, `Pool.give`: out of the pool and back;
- `Pool.parkedCount`.
-/

namespace InvertedIndex

/-- A pool of buffers of `α`. -/
structure Pool (α : Type) where
  /-- The elements in a unit of size. -/
  unit : Nat
  /-- The buffers parked under each class, last parked first. -/
  parked : Vector (List (List α)) 43
  /-- How many requests were served by a parked buffer. -/
  reused : Nat

namespace Pool

variable {α : Type}

/-- A pool without parked buffers. -/
def new (unit : Nat) : Pool α := ⟨unit, Vector.replicate 43 [], 0⟩

/-- The smallest class with room for so many elements, `none` beyond the largest. -/
def classFor? (pool : Pool α) (count : Nat) : Option SizeClass :=
  SizeClass.least? ((count + pool.unit - 1) / pool.unit)

/-- The elements that a buffer of the class holds. -/
def capacity (pool : Pool α) (c : SizeClass) : Nat := c.units * pool.unit

/-- A buffer of the class, a parked one if there is one. -/
def take (pool : Pool α) (c : SizeClass) : List α × Pool α :=
  match pool.parked.get c with
  | buffer :: rest =>
    (buffer, { pool with parked := pool.parked.set c.val rest c.isLt, reused := pool.reused + 1 })
  | [] => ([], pool)

/-- Parks an emptied buffer of the class. -/
def give (pool : Pool α) (c : SizeClass) : Pool α :=
  if c = .zero then pool
  else { pool with parked := pool.parked.set c.val ([] :: pool.parked.get c) c.isLt }

/-- How many buffers are parked. -/
def parkedCount (pool : Pool α) : Nat :=
  pool.parked.toList.foldr (fun buffers count => buffers.length + count) 0

end Pool
end InvertedIndex
