import InvertedIndex.Query.Tree

/-!
# `InvertedIndex.Query.Resolver` — what becomes of a token as it is read

Each token is shown to a resolver before it is placed. The resolver may drop it, move it, give it
another text, or put a whole tree in its place.
-/

namespace InvertedIndex

/-- What becomes of a token. -/
structure Resolution where
  action : Action := .normal
  /-- The text of an attribute token, if not its own. -/
  param : Option String := none
  /-- Whether its attribute values are read again as tokens of their own. -/
  noParams : Bool := false
  /-- The tree that takes its place. -/
  substitute : Option Token := none
  deriving Repr

/-- Decides what becomes of a token, given its text and its attribute values. The text of
    `name:value` is `name:`, and its values are those of the list in brackets, then the one behind
    it. -/
abbrev Resolver := String → List String → Resolution

/-- The resolver that leaves every token as it is. -/
def Resolver.plain : Resolver := fun _ _ => {}

end InvertedIndex
