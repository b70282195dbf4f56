import InvertedIndex.Query.Tree

/-!
# `InvertedIndex.Query.Precedence` — `or`, `not` and the tokens side by side

In a run of siblings, `or` binds loosest, then `not`, and tokens side by side bind closest. Each
pass takes the runs of a tree from the inside out and leaves quoted phrases as they are.

## Contents
- `Token.regroup`: a pass applied to every run below a token;
- `splitOr`: a run parted at its `or` tokens;
- `splitNot`: a run parted into what is wanted and what is not;
- `groupAll`: what is left of the outermost run in one group;
- `arrange`: the three in their order.
-/

namespace InvertedIndex

/-- Whether a token has the kind of an operator, or is a word that spells it, in letters of any
    case. -/
def Token.isOperator (kind : TokenKind) (name : List Char) (token : Token) : Bool :=
  token.kind = kind ∨ (token.kind = .word ∧ token.text.toList.map Char.toLower = name)

/-- Whether a token separates alternatives. -/
def Token.isOr (token : Token) : Bool := token.isOperator .or ['o', 'r']

/-- Whether a token excludes the one behind it. -/
def Token.isNot (token : Token) : Bool := token.isOperator .not ['n', 'o', 't']

/-- Applies a pass to every run below a token, innermost runs first, but not within quotation
    marks. -/
def Token.regroup (pass : List Token → List Token) : Token → Token
  | ⟨kind, text, action, noParams, attrs, modifiers, children⟩ =>
    ⟨kind, text, action, noParams, attrs, modifiers,
      if kind = .doubleQuote then children else pass (regroupAll pass children)⟩
where
  /-- Applies a pass to every run below several tokens. -/
  regroupAll (pass : List Token → List Token) : List Token → List Token
    | [] => []
    | token :: rest => Token.regroup pass token :: regroupAll pass rest

/-! ## Alternatives -/

/-- Parts a run at its `or` tokens into the pieces before them and the piece behind the last.
    `piece` holds the tokens of the current piece, last one first. An empty piece is left out, and
    so is the piece before an `or` that ends the run. -/
def orPieces (piece : List Token) : List Token → List (List Token) × List Token
  | [] => ([], piece.reverse)
  | token :: rest =>
    if token.isOr then
      let (pieces, last) := orPieces [] rest
      (if rest.isEmpty ∨ piece.isEmpty then pieces else piece.reverse :: pieces, last)
    else orPieces (token :: piece) rest

/-- Turns a run with `or` tokens between its pieces into one token for the alternatives. A run that
    has none keeps the `or` tokens in front and loses what follows a later one. -/
def splitOr (run : List Token) : List Token :=
  match orPieces [] run with
  | ([], _) => run.takeWhile Token.isOr ++ (run.dropWhile Token.isOr).takeWhile fun t => !t.isOr
  | (pieces, last) =>
    let pieces := if last.isEmpty then pieces else pieces ++ [last]
    [{ kind := .or, text := "or", children := pieces.map Token.ofRun }]

/-! ## Exclusions -/

/-- Parts a run into the operands of its `not` tokens and the other tokens. A `not` without an
    operand belongs to neither. -/
def notParts : List Token → List Token × List Token
  | [] => ([], [])
  | token :: rest =>
    if token.isNot then
      match rest with
      | [] => ([], [])
      | operand :: rest =>
        let (negated, kept) := notParts rest
        (operand :: negated, kept)
    else
      let (negated, kept) := notParts rest
      (negated, token :: kept)

/-- The alternatives as one token, a single one as it is. -/
def anyOf : List Token → Token
  | [token] => token
  | run => { kind := .or, text := "or", children := run }

/-- Turns a run with negated and other tokens into one token that excludes the ones from the others.
    A run that lacks either stays as it is. -/
def splitNot (run : List Token) : List Token :=
  let (negated, kept) := notParts run
  if negated.isEmpty ∨ kept.isEmpty then run
  else [{ kind := .not, text := "not", children := [anyOf negated, Token.ofRun kept] }]

/-! ## All passes -/

/-- Applies a pass to a run and every run below it. -/
def rearrange (pass : List Token → List Token) (run : List Token) : List Token :=
  pass (Token.regroup.regroupAll pass run)

/-- The outermost run as one token. -/
def groupAll : List Token → Option Token
  | [] => none
  | run => some (Token.ofRun run)

/-- The tree of a run in which operators are still plain tokens. -/
def arrange (run : List Token) : Option Token :=
  groupAll (rearrange splitNot (rearrange splitOr run))

end InvertedIndex
