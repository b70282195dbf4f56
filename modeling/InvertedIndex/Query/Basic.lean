import InvertedIndex.Query.Precedence
import InvertedIndex.Query.Scan

/-!
# `InvertedIndex.Query.Basic` — queries

Words side by side are wanted together, `or` and `|` separate alternatives, `not` excludes the token
behind it, quotation marks enclose a phrase, and `word*` stands for all terms with that stem. Every
text is a query; one without usable tokens is empty.
-/

namespace InvertedIndex

/-- A query that has been read. -/
structure Query where
  /-- The tree, unless the query is empty. -/
  root : Option Token := none
  /-- The tokens of the whole query. -/
  globals : List Token := []
  deriving Repr

namespace Query

/-- Reads a query, showing each token to the resolver. -/
def parse (input : String) (resolve : Resolver := Resolver.plain) : Query :=
  let outline := scan resolve input
  ⟨arrange outline.roots, outline.globals⟩

/-- Whether the query has no tokens. -/
def isEmpty (query : Query) : Bool := query.root.isNone

/-- The tree as indented text. -/
def display (query : Query) : String := (query.root.map Token.display).getD ""

end Query
end InvertedIndex
