import InvertedIndex.Fault
import InvertedIndex.Snapshot.TermData

/-!
# `InvertedIndex.Snapshot.Check` — whether the postings of a term can be read

The data of a term is sound when it consists of whole groups that ascend by number, each group of
whole entries that ascend by member number, and every list of whole occurrences. The first flaw
found is reported with its offset from the start of the data.
-/

namespace InvertedIndex
namespace TermData

/-- The first flaw in the body of a group that ends at the offset `stop`; `last` is the member
    number of the entry before. -/
def bodyFlaw? (stop : Nat) (last : Option UInt16) (body : Bytes) : Option PostingFlaw :=
  if body.isEmpty then none
  else
    let offset := stop - body.length
    match _h : decodeMember? body with
    | none => some (.badEntry offset)
    | some entry =>
      if last.any (entry.member ≤ ·) then some (.entryOrder offset)
      else if entry.content.occurrences?.isNone then some (.badList offset)
      else bodyFlaw? stop (some entry.member) entry.rest
termination_by body.length
decreasing_by
  have := decodeMember?_length _h
  omega

/-- The first flaw in data that ends at the offset `stop`; `last` is the number of the group
    before. -/
def dataFlaw? (stop : Nat) (last : Option UInt16) (data : Bytes) : Option PostingFlaw :=
  if data.isEmpty then none
  else
    match _h : decodeGroup? data with
    | none => some (.badGroup (stop - data.length))
    | some group =>
      if last.any (group.number ≤ ·) then some (.groupOrder group.number)
      else
        match bodyFlaw? (stop - group.rest.length) none group.body with
        | some flaw => some flaw
        | none => dataFlaw? stop (some group.number) group.rest
termination_by data.length
decreasing_by
  have := decodeGroup?_length _h
  omega

/-- The first flaw in the data of a term. -/
def flaw? (data : Bytes) : Option PostingFlaw := dataFlaw? data.length none data

end TermData
end InvertedIndex
