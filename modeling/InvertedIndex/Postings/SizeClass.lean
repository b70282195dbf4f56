/-!
# `InvertedIndex.Postings.SizeClass` — the sizes that blocks come in

Storage is handed out in blocks of a few fixed sizes, so that a block given back can serve any later
request of its class. Sizes are counted in units; what a unit is depends on what the block holds.
-/

namespace InvertedIndex

/-- The sizes of the classes in units, ascending. -/
def sizeClasses : Vector Nat 43 := #v[
  0, 1, 2, 3, 4, 5, 6, 7, 12, 24, 32, 48, 64, 96, 128, 196, 256, 512, 1024, 2048, 3072, 4096,
  12288, 16384, 24576, 32768, 49152, 65536, 98304, 131072, 196608, 262144, 524288, 786432,
  1048576, 1572864, 2097152, 3145728, 4194304, 6291456, 8388608, 12845056, 16777216]

/-- A size class, as its place in `sizeClasses`. -/
abbrev SizeClass := Fin 43

namespace SizeClass

/-- The class of blocks without room. -/
def zero : SizeClass := ⟨0, Nat.zero_lt_succ 42⟩

/-- The size of a class in units. -/
def units (c : SizeClass) : Nat := sizeClasses.get c

/-- The smallest class with room for so many units, `none` beyond the largest. -/
def least? (units : Nat) : Option SizeClass :=
  (List.finRange 43).find? fun c => units ≤ c.units

end SizeClass
end InvertedIndex
