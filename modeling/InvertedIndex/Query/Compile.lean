import InvertedIndex.Cursor.Basic
import InvertedIndex.Query.Basic
import InvertedIndex.Settings

/-!
# `InvertedIndex.Query.Compile` — from token trees to cursors

Groups become intersections, quoted groups phrases, and the `or` and `not` tokens unions and
differences. Leaves become cursors over the term they name, or over all terms with their stem. A
token that can match nothing compiles to no cursor; a group around it then matches nothing either.

## Contents
- `Source`: where cursors over terms come from;
- `LeafHook`: leaves that the caller takes over;
- `Compiler`, `Compiler.leaf`, `Compiler.token`, `Compiler.query`.
-/

namespace InvertedIndex

/-- Where the cursors over terms come from. -/
class Source (S : Type) (L : outParam Type) where
  /-- A cursor over the ids of a term, empty if the term is unknown. -/
  cursor : S → String → Cursor L
  /-- A cursor over the ids of all terms with a stem. -/
  stemCursor : S → String → Cursor L

/-- Gives a cursor for a leaf that is not to be looked up as a term. -/
abbrev LeafHook (L : Type) := Token → Option (Cursor L)

/-- The stem that a text with a star at its end stands for, unless it is empty. -/
def stem? (text : String) : Option String :=
  let characters := text.toList
  if characters.getLast? = some '*' ∧ characters.length ≠ 1 then
    some (String.ofList characters.dropLast)
  else none

/-- All that a compilation depends on. -/
structure Compiler (S L : Type) where
  source : S
  settings : CompileSettings := {}
  hook : LeafHook L := fun _ => none

namespace Compiler

variable {S L : Type} [Source S L]

/-- The cursors of a group, none if a token has no cursor or an empty one. -/
def members? : List (Option (Cursor L)) → Option (List (Cursor L))
  | [] => some []
  | none :: _ => none
  | some c :: rest => if c.kind = .empty then none else (members? rest).map (c :: ·)

/-- The cursor of a group of tokens. -/
def group? (kind : TokenKind) (subs : List (Option (Cursor L))) : Option (Cursor L) :=
  (members? subs).map fun members =>
    if kind = .doubleQuote then Cursor.phraseOf members
    else
      match members with
      | [c] => c
      | members => Cursor.interOf members

/-- The cursor of alternatives. It has positions if all of them have. -/
def alternatives (subs : List (Option (Cursor L))) : Cursor L :=
  match subs.filterMap id with
  | [] => .empty
  | [c] => c
  | cursors =>
    if cursors.all fun c => c.kind.hasPositions then Cursor.unionOf .positional cursors
    else Cursor.unionOf .plain cursors

/-- The cursor of an exclusion: what is excluded comes first. -/
def exclusion? : List (Option (Cursor L)) → Option (Cursor L)
  | dropped :: kept :: _ =>
    match kept, dropped with
    | none, _ => some .empty
    | some kept, none => some kept
    | some kept, some dropped => some (.diff kept dropped)
  | _ => none

/-- The cursor of a token with children, given those of the children. -/
def inner? (kind : TokenKind) (subs : List (Option (Cursor L))) : Option (Cursor L) :=
  match kind with
  | .openParen | .doubleQuote => group? kind subs
  | .or => some (alternatives subs)
  | .not => exclusion? subs
  | _ => none

/-- The cursor of a leaf: the hook comes first. Attribute values name the terms that start with the
    text of the leaf and end with one of them. -/
def leaf? (compiler : Compiler S L) (token : Token) : Option (Cursor L) :=
  match compiler.hook token with
  | some c => some c
  | none =>
    if token.kind = .null then none
    else
      match token.attrs with
      | [] =>
        match stem? token.text with
        | some stem => some (Source.stemCursor compiler.source stem)
        | none => some (Source.cursor compiler.source token.text)
      | [attr] => some (Source.cursor compiler.source (token.text ++ attr))
      | attrs =>
        some (Cursor.unionOf .plain
          (attrs.map fun attr => Source.cursor compiler.source (token.text ++ attr)))

/-- The cursor of a token at the given depth, none below the greatest depth. -/
def token? (compiler : Compiler S L) (depth : Nat) : Token → Option (Cursor L)
  | ⟨kind, text, action, noParams, attrs, modifiers, children⟩ =>
    if compiler.settings.maxDepth < depth then none
    else if children.isEmpty then
      compiler.leaf? ⟨kind, text, action, noParams, attrs, modifiers, []⟩
    else inner? kind (tokens? compiler (depth + 1) children)
where
  /-- The cursors of tokens side by side. -/
  tokens? (compiler : Compiler S L) (depth : Nat) : List Token → List (Option (Cursor L))
    | [] => []
    | token :: rest => token? compiler depth token :: tokens? compiler depth rest

/-- The cursor of a tree; a tree that cannot match has an empty one. -/
def tree (compiler : Compiler S L) (root : Option Token) : Cursor L :=
  (root.bind (compiler.token? 0)).getD .empty

/-- The cursor of a query. -/
def query (compiler : Compiler S L) (query : Query) : Cursor L := compiler.tree query.root

end Compiler

/-- Reads a query and compiles it. -/
def search {S L : Type} [Source S L] (source : S) (input : String) : Cursor L :=
  Compiler.query { source } (Query.parse input)

end InvertedIndex
