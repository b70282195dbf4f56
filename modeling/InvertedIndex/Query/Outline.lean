import InvertedIndex.Query.Tree

/-!
# `InvertedIndex.Query.Outline` — a token tree while it is read

Tokens are placed into the tree one by one. The token placed last is the **tail**; a new token
becomes its child if the tail opens a group and has no children yet, and its next sibling otherwise.
A closing token makes the parent the tail. So only the tail and its ancestors can still change, and
an outline keeps just these apart: a list of levels from the tail outwards, each with the siblings
before.

## Contents
- `Level`, `Outline`, and what they say about the tail: `tail?`, `parent?`, `inside`;
- `Outline.leave`, `Outline.close`: the parent becomes the tail;
- `mergeIntoTail?`: tokens that only change the tail;
- `Outline.append`, `Outline.attach`: a token added;
- `Outline.place`: all of this for one token; `Outline.roots`: the finished tree.
-/

namespace InvertedIndex

/-- Siblings of the tree, of which the last can still change. -/
structure Level where
  /-- The siblings before the last, nearest first. -/
  earlier : List Token
  /-- The last; what lies below it is in the level inside, if there is one. -/
  last : Token
  deriving Repr

/-- The siblings of a level in order. -/
def Level.tokens (level : Level) : List Token := (level.last :: level.earlier).reverse

/-- A token tree while it is read. -/
structure Outline where
  /-- The level of the tail and those around it, from the inside out. -/
  spine : List Level := []
  /-- Tokens that will modify the next one. -/
  pending : List Token := []
  /-- Tokens of the whole query. -/
  globals : List Token := []
  deriving Repr

namespace Outline

/-! ## The tail -/

/-- The token placed last. -/
def tail? (outline : Outline) : Option Token := outline.spine.head?.map Level.last

/-- The parent of the tail. -/
def parent? (outline : Outline) : Option Token := outline.spine.tail.head?.map Level.last

/-- Whether the tail or one of its ancestors has the kind. -/
def inside (outline : Outline) (kind : TokenKind) : Bool :=
  outline.spine.any fun level => level.last.kind = kind

/-- Replaces the tail. -/
def setTail (outline : Outline) (token : Token) : Outline :=
  match outline.spine with
  | [] => outline
  | level :: outer => { outline with spine := { level with last := token } :: outer }

/-- Makes the parent of the tail the tail. -/
def leave (outline : Outline) : Outline :=
  match outline.spine with
  | level :: parent :: outer =>
    { outline with
      spine := { parent with last := { parent.last with children := level.tokens } } :: outer }
  | _ => outline

/-- Closes a group of the kind: leaves it if the tail is in it, and marks it as empty if the tail
    itself opened it. Any other closing token has no effect. -/
def close (outline : Outline) (kind : TokenKind) : Outline :=
  if outline.parent?.any (·.kind = kind) then outline.leave
  else
    match outline.tail? with
    | some tail =>
      if tail.kind = kind ∧ tail.children.isEmpty then
        outline.setTail { tail with children := [{ kind := .null, text := "" }] }
      else outline
    | none => outline

/-! ## Tokens that only change the tail -/

/-- The text of the tail after a token that merges into it: two signs make one, and a comparison
    lengthens a comparison. -/
def mergedText? (kind : TokenKind) (text : String) (tail : Token) : Option String :=
  if text = "-" ∧ tail.text = "-" then some "+"
  else if text = "-" ∧ tail.text = "+" then some "-"
  else if text = "+" ∧ (tail.text = "+" ∨ tail.text = "-") then some tail.text
  else if kind = .comparison ∧ tail.kind = .comparison then some (tail.text ++ text)
  else none

/-- The outline after a token that merges into the tail. -/
def mergeIntoTail? (outline : Outline) (kind : TokenKind) (text : String) : Option Outline :=
  outline.tail?.bind fun tail =>
    (mergedText? kind text tail).map fun text => outline.setTail { tail with text }

/-- Whether the token is the comparison whose operand stands below it. -/
def isEquation (token : Token) : Bool := token.kind = .comparison ∧ token.text = "="

/-- Whether the token encloses a list in which commas count. -/
def enclosesList (token : Token) : Bool := token.kind = .openParen ∨ token.kind = .openBracket

/-- The outline after a token that only says where the next one goes; `none` if the token has to be
    placed. A second quotation mark closes the first, a space ends the operand of an equation, and a
    comma counts in a list alone. -/
def steer? (outline : Outline) : TokenKind → Option Outline
  | .closeParen => some (outline.close .openParen)
  | .closeBrace => some (outline.close .openBrace)
  | .closeBracket => some (outline.close .openBracket)
  | .doubleQuote =>
    if outline.parent?.any (·.kind = .doubleQuote) then some outline.leave
    else if outline.tail?.any fun tail => tail.kind = .doubleQuote ∧ tail.children.isEmpty then
      some outline
    else none
  | .space => some (if outline.parent?.any isEquation then outline.leave else outline)
  | .comma =>
    if outline.parent?.any enclosesList ∨ outline.tail?.any enclosesList then none else some outline
  | _ => none

/-! ## Tokens added -/

/-- Whether a token after this one becomes its child. -/
def nests (tail : Token) : Bool := tail.children.isEmpty ∧ (tail.kind.isGroup ∨ isEquation tail)

/-- Encloses the conditional `z cmp y ? x : t` that ends a level in parentheses. -/
def encloseConditional (level : Level) : Level :=
  match level.last, level.earlier with
  | t, colon :: x :: question :: y :: comparison :: z :: before =>
    if question.kind = .question ∧ comparison.kind = .comparison then
      ⟨before, Token.paren [z, comparison, y, question, x, colon, t]⟩
    else level
  | _, _ => level

/-- Adds a token behind the tail, or below it. -/
def append (outline : Outline) (token : Token) : Outline :=
  match outline.spine with
  | [] => { outline with spine := [⟨[], token⟩] }
  | level :: outer =>
    if nests level.last then { outline with spine := ⟨[], token⟩ :: level :: outer }
    else
      let grown : Level := ⟨level.last :: level.earlier, token⟩
      let grown := if level.last.kind = .colon then encloseConditional grown else grown
      { outline with spine := grown :: outer }

/-- Adds a token where its action sends it. In the tree it takes the modifiers that wait for it. -/
def attach (outline : Outline) (action : Action) (token : Token) : Outline :=
  match action with
  | .next => { outline with pending := outline.pending ++ [token] }
  | .global => { outline with globals := outline.globals ++ [token] }
  | _ =>
    if outline.pending.isEmpty then outline.append token
    else
      { outline with pending := [] }.append { token with modifiers := outline.pending }

/-! ## One token -/

/-- Places a token with the given kind, text and attribute values, or its substitute. -/
def place (outline : Outline) (kind : TokenKind) (text : String) (action : Action)
    (attrs : List String) (substitute : Option Token) : Outline :=
  match outline.mergeIntoTail? kind text with
  | some outline => outline
  | none =>
    match outline.steer? kind with
    | some outline => outline
    | none =>
      let token := substitute.getD { kind, text, action }
      outline.attach action (if attrs.isEmpty then token else { token with attrs })

/-- The siblings of the outermost level, given those of the level inside `spine`. -/
def rootsAround (tokens : List Token) : List Level → List Token
  | [] => tokens
  | level :: outer =>
    rootsAround { level with last := { level.last with children := tokens } }.tokens outer

/-- The siblings of the outermost level. -/
def roots (outline : Outline) : List Token :=
  match outline.spine with
  | [] => []
  | level :: outer => rootsAround level.tokens outer

end Outline
end InvertedIndex
