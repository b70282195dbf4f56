import InvertedIndex.DocId
import InvertedIndex.Snapshot.FileRole
import InvertedIndex.Text.Quoted

/-!
# `InvertedIndex.Fault` — what can go wrong

Every failure of the library is a `Fault`, which names its cause; the wording is in `Fault.message`
alone. A fault in the files of a snapshot is a `Corruption`.
-/

namespace InvertedIndex

/-! ## Faults in a snapshot -/

/-- What is wrong with the postings of a term; offsets count from the first byte of the postings. -/
inductive PostingFlaw where
  /-- No whole group starts at the offset. -/
  | badGroup (offset : Nat)
  /-- The group does not exceed the one before it. -/
  | groupOrder (group : UInt16)
  /-- No whole entry starts at the offset. -/
  | badEntry (offset : Nat)
  /-- The entry at the offset does not exceed the one before it. -/
  | entryOrder (offset : Nat)
  /-- The position list of the entry at the offset cannot be read. -/
  | badList (offset : Nat)
  deriving Repr, DecidableEq

/-- Why the files of a snapshot cannot be trusted. -/
inductive Corruption where
  | missing (file : FileRole)
  /-- The global index does not consist of whole entries. -/
  | globalIndexLength
  /-- The blob of the id does not lie within the data. -/
  | globalRange (id : Nat)
  /-- The last term of the index has no end. -/
  | unterminatedTerm
  /-- The term at the offset of the index is no text. -/
  | termEncoding (offset : Nat)
  /-- The last entry of the term index is incomplete. -/
  | truncatedEntry
  /-- The postings of the term at the offset of the index do not lie within the data. -/
  | termRange (offset : Nat)
  /-- The terms of the index do not ascend. -/
  | termOrder
  /-- The postings of the term are malformed. -/
  | postings (term : String) (flaw : PostingFlaw)
  deriving Repr, DecidableEq

/-- A failure of the library. -/
inductive Fault where
  /-- No document may have this id. -/
  | invalidId (id : DocId)
  /-- No snapshot can record this term. -/
  | invalidTerm (term : String)
  /-- The postings of the term would need more bytes than the largest block has. -/
  | postingTooLarge (term : String) (bytes : Nat)
  /-- The line has no name, no action or no expression. -/
  | malformedEntry (line : String)
  /-- The line names an action that does not exist. -/
  | unknownAction (action line : String)
  /-- The expression of the name has no tokens. -/
  | emptyExpression (name : String)
  /-- The snapshot with the base name cannot be trusted. -/
  | corrupt (base : String) (cause : Corruption)
  deriving Repr, DecidableEq

/-! ## Wording -/

/-- The wording of a flaw in postings. -/
def PostingFlaw.message : PostingFlaw → String
  | .badGroup offset => s!"bad group header at {offset}"
  | .groupOrder group => s!"group {group} out of order"
  | .badEntry offset => s!"bad entry at {offset}"
  | .entryOrder offset => s!"entry at {offset} out of order"
  | .badList offset => s!"bad position list at {offset}"

namespace Corruption

/-- The file that cannot be trusted. -/
def file : Corruption → FileRole
  | .missing file => file
  | .globalIndexLength => .globalIndex
  | .globalRange _ => .globalData
  | .unterminatedTerm | .termEncoding _ | .truncatedEntry | .termOrder => .termIndex
  | .termRange _ | .postings _ _ => .termData

/-- What is wrong with the file. -/
def reason : Corruption → String
  | .missing _ => "missing file"
  | .globalIndexLength => "length is not a multiple of 8"
  | .globalRange id => s!"global {id} out of range"
  | .unterminatedTerm => "unterminated term"
  | .termEncoding offset => s!"term at {offset} is not UTF-8"
  | .truncatedEntry => "truncated entry"
  | .termRange offset => s!"term at {offset} out of range"
  | .termOrder => "terms out of order"
  | .postings term flaw => "term " ++ Text.quoted term ++ ": " ++ flaw.message

end Corruption

namespace Fault

/-- The wording of a fault. -/
def message : Fault → String
  | .invalidId id => s!"Invalid document id: {id} (ids must be in 1..=0x7FFFFFF)"
  | .invalidTerm term => "Invalid term: " ++ Text.quoted term
  | .postingTooLarge term bytes =>
    "Posting for term " ++ Text.quoted term ++
      s!" would need {bytes} bytes, beyond the largest size class"
  | .malformedEntry line => "Dictionary error: malformed entry: " ++ Text.quoted line
  | .unknownAction action line =>
    "Dictionary error: unknown action " ++ Text.quoted action ++ " in " ++ Text.quoted line
  | .emptyExpression name => "Dictionary error: empty expression for " ++ Text.quoted name
  | .corrupt base cause => "Corrupt index " ++ base ++ cause.file.suffix ++ ": " ++ cause.reason

/-- Whether the fault means that a snapshot cannot be trusted. -/
def isCorruption : Fault → Bool
  | .corrupt _ _ => true
  | _ => false

end Fault

/-- The id, if a document may have it. -/
def DocId.check (id : DocId) : Except Fault Unit :=
  if id.Valid then .ok () else .error (.invalidId id)

end InvertedIndex
