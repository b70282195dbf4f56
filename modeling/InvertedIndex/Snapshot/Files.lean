import InvertedIndex.Bytes
import InvertedIndex.Snapshot.FileRole

/-!
# `InvertedIndex.Snapshot.Files` — the contents of the four files

Both data files consist of regions, each with its length in four bytes in front. The index files
give the place of a region as the offset of its first byte, behind the length; no region has the
offset `0`.

## Contents
- `SnapshotFiles`, with `set` and `remove`;
- `region`: bytes with their length in front; `regionAt?`: the region at an offset.
-/

namespace InvertedIndex

/-- The contents of each file, `none` if it is missing. -/
def SnapshotFiles := FileRole → Option Bytes

namespace SnapshotFiles

/-- No files. -/
def none : SnapshotFiles := fun _ => Option.none

/-- Replaces the contents of a file. -/
def set (files : SnapshotFiles) (file : FileRole) (contents : Bytes) : SnapshotFiles :=
  fun other => if other = file then some contents else files other

/-- Removes a file. -/
def remove (files : SnapshotFiles) (file : FileRole) : SnapshotFiles :=
  fun other => if other = file then Option.none else files other

end SnapshotFiles

/-- Bytes with their length in front. -/
def region (bytes : Bytes) : Bytes := Bytes.ofUInt32 bytes.length.toUInt32 ++ bytes

/-- How many bytes stand in front of a region's own. -/
def regionHeader : Nat := 4

/-- The region whose first byte is at the offset, `none` if it does not lie within the data. -/
def regionAt? (data : Bytes) (offset : Nat) : Option Bytes :=
  if offset < regionHeader then none
  else
    match Bytes.readUInt32? (data.drop (offset - regionHeader)) with
    | none => none
    | some (length, rest) => (Bytes.take? length.toNat rest).map Prod.fst

end InvertedIndex
