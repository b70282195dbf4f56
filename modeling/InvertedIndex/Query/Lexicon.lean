import InvertedIndex.Fault
import InvertedIndex.Query.Basic
import InvertedIndex.Text.Blank
import Std.Data.TreeMap

/-!
# `InvertedIndex.Query.Lexicon` — named expressions

A lexicon gives names to query expressions. As a resolver it puts the tree of an expression in place
of each token whose text is its name. An entry is a line

    name action[,no_params] expression

with white space in between, where the action says what becomes of the tokens so named.

## Contents
- `Lexicon`, `Lexicon.add`, `Lexicon.ofText`;
- `Lexicon.get?`, `Lexicon.values`, `Lexicon.value?`, `Lexicon.size`;
- `Lexicon.resolver`.
-/

namespace InvertedIndex

/-- Named expressions. -/
structure Lexicon where
  entries : Std.TreeMap String Token

namespace Lexicon

/-- No entries. -/
def empty : Lexicon := ⟨∅⟩

/-- The action and the flag in the second field of a line. -/
def splitFlag (field : List Char) : List Char × Bool :=
  (field.takeWhile (· ≠ ','), (field.dropWhile (· ≠ ',')).drop 1 = "no_params".toList)

/-- Adds the entry on a line, in place of any with its name. -/
def add (lexicon : Lexicon) (line : String) : Except Fault Lexicon := do
  let some (name, rest) := Text.splitField? (Text.trimStart line.toList)
    | throw (.malformedEntry line)
  let some (field, expression) := Text.splitField? (Text.trimStart rest)
    | throw (.malformedEntry line)
  let (actionName, noParams) := splitFlag field
  let some action := Action.ofName? (String.ofList actionName)
    | throw (.unknownAction (String.ofList actionName) line)
  let some root := (Query.parse (String.ofList expression)).root
    | throw (.emptyExpression (String.ofList name))
  return ⟨lexicon.entries.insert (String.ofList name) { root with action, noParams }⟩

/-- The lexicon with the entries on the lines of a text; blank lines are left out. -/
def ofText (text : String) : Except Fault Lexicon :=
  ((Text.lines text.toList).filter fun line => !line.all Text.isBlank).foldlM
    (fun lexicon line => lexicon.add (String.ofList line)) empty

/-- The tree of a name. -/
def get? (lexicon : Lexicon) (name : String) : Option Token := lexicon.entries[name]?

/-- The attribute values of the tree of a name. -/
def values (lexicon : Lexicon) (name : String) : List String :=
  match lexicon.get? name with
  | some root => root.attrs
  | none => []

/-- The first attribute value of the tree of a name. -/
def value? (lexicon : Lexicon) (name : String) : Option String := (lexicon.values name).head?

/-- How many entries there are. -/
def size (lexicon : Lexicon) : Nat := lexicon.entries.size

/-- The text of an attribute name without its colon. -/
def dropColon? (name : String) : Option String :=
  let characters := name.toList
  if characters.getLast? = some ':' then some (String.ofList characters.dropLast) else none

/-- Puts the tree of a name in its place. A token that starts with `@` and has no entry is a number;
    any other loses its attribute values, which are read as tokens of their own. -/
def resolver (lexicon : Lexicon) : Resolver := fun name _ =>
  match lexicon.get? name with
  | some root =>
    { action := root.action, noParams := root.noParams, substitute := some root }
  | none =>
    if name.toList.head? = some '@' then { action := .number }
    else { param := dropColon? name, noParams := true }

end Lexicon
end InvertedIndex
