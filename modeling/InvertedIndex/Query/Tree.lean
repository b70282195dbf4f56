/-!
# `InvertedIndex.Query.Tree` — tokens and token trees

A query is read into a tree of tokens. Groups, quoted phrases and the operators `or` and `not` hold
tokens as children. A token may also carry attribute values and a chain of modifiers, tokens that a
resolver attached to it.

## Contents
- `TokenKind`, `Action`, `Token`;
- `Token.rows`: a tree as a list of rows, each with its depth;
- `Token.display`: a tree as indented text.
-/

namespace InvertedIndex

/-- The lexical class of a token. -/
inductive TokenKind where
  | word | number | operator | comparison | modifier | and | or | not | dash
  | openParen | closeParen | openBrace | closeBrace | openBracket | closeBracket
  | quote | doubleQuote | null | colon | question | comma | space | other
  deriving Repr, DecidableEq

/-- Whether tokens of the kind open a group: what follows them becomes their children. -/
def TokenKind.isGroup : TokenKind → Bool
  | .openParen | .openBrace | .openBracket | .doubleQuote => true
  | _ => false

/-- How a token takes part in the query. -/
inductive Action where
  /-- Not at all. -/
  | skip
  /-- Where it stands. -/
  | normal
  /-- As a modifier of the token that follows. -/
  | next
  /-- As a token of the whole query. -/
  | global
  /-- Where it stands, as a number. -/
  | number
  deriving Repr, DecidableEq

/-- The action with the given name. -/
def Action.ofName? : String → Option Action
  | "skip" => some .skip
  | "normal" => some .normal
  | "next" => some .next
  | "global" => some .global
  | "number" => some .number
  | _ => none

/-- A token with all that belongs to it. -/
structure Token where
  kind : TokenKind
  text : String
  action : Action := .normal
  /-- Whether its attribute values were read again as tokens of their own. -/
  noParams : Bool := false
  /-- The values of `name:[a,b]value`. -/
  attrs : List String := []
  modifiers : List Token := []
  children : List Token := []
  deriving Repr

namespace Token

/-- A group in parentheses. -/
def paren (children : List Token) : Token := { kind := .openParen, text := "(", children }

/-- The single token of a run, or the run in parentheses. -/
def ofRun : List Token → Token
  | [token] => token
  | run => paren run

/-! ## Trees as lists -/

/-- A token of a tree, without its children and modifiers. -/
structure Row where
  depth : Nat
  /-- Whether the token belongs to a chain of modifiers. -/
  inModifiers : Bool
  kind : TokenKind
  text : String
  action : Action
  noParams : Bool
  attrs : List String
  deriving Repr, DecidableEq

/-- The tokens of a tree: the token itself, then its modifiers two levels deeper, then its children
    one level deeper. -/
def rows (depth : Nat) (inModifiers : Bool) : Token → List Row
  | ⟨kind, text, action, noParams, attrs, modifiers, children⟩ =>
    ⟨depth, inModifiers, kind, text, action, noParams, attrs⟩ ::
      (rowsAll (depth + 2) true modifiers ++ rowsAll (depth + 1) inModifiers children)
where
  /-- The tokens of several trees. -/
  rowsAll (depth : Nat) (inModifiers : Bool) : List Token → List Row
    | [] => []
    | token :: rest => rows depth inModifiers token ++ rowsAll depth inModifiers rest

/-- The lines of a row: its text, then each attribute value. -/
def Row.display (row : Row) : String :=
  let indent := String.ofList (List.replicate row.depth '\t')
  row.attrs.foldl (fun shown attr => shown ++ indent ++ " * " ++ attr ++ "\n")
    (indent ++ row.text ++ "\n")

/-- A tree as indented text. -/
def display (token : Token) : String := String.join ((token.rows 0 false).map Row.display)

end Token
end InvertedIndex
