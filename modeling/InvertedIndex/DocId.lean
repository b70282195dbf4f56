/-!
# `InvertedIndex.DocId` — document ids and their group/member split

A document is named by a 27-bit number. Its upper 15 bits are the **group**, its lower 12 bits the
**member** within the group; postings are kept together per group, so ids of one group share
storage. The number `0` names no document: streams of ids use it for "nothing (more)".

## Contents
- the masks and the largest id;
- `DocId.group`, `DocId.member` and `DocId.compose`, the split and its inverse;
- `DocId.Valid`, the ids that a document may have.
-/

namespace InvertedIndex

/-- A document id; `0` stands for "no document". -/
abbrev DocId := UInt32

namespace DocId

/-- The bits of an id that hold its group. -/
def groupMask : DocId := 0x7FFF000

/-- The bits of an id that hold its member number. -/
def memberMask : DocId := 0xFFF

/-- The largest id that the split can represent. -/
def largest : DocId := groupMask ||| memberMask

/-- The group of an id; bits above the 27th are ignored. -/
def group (id : DocId) : UInt16 := ((id &&& groupMask) >>> 12).toUInt16

/-- The member number of an id within its group. -/
def member (id : DocId) : UInt16 := (id &&& memberMask).toUInt16

/-- The id with the given group and member number; only the low 12 bits of the member count. -/
def compose (group member : UInt16) : DocId :=
  (group.toUInt32 <<< 12) ||| (member.toUInt32 &&& memberMask)

/-- An id that a document may have: neither `0` nor outside the 27 bits. -/
def Valid (id : DocId) : Prop := id ≠ 0 ∧ id ≤ largest

instance (id : DocId) : Decidable (Valid id) := inferInstanceAs (Decidable (_ ∧ _))

end DocId
end InvertedIndex
