import InvertedIndex.Query.Attribute
import InvertedIndex.Query.Outline
import InvertedIndex.Query.Resolver

/-!
# `InvertedIndex.Query.Scan` — reading the characters of a query

The characters are read from left to right. Word characters gather into a word; any other character
ends the word, places it, and is then a token of its own or has an effect on what follows.

## Contents
- `CharClass`: what a character does;
- `Scanner`: the outline and the word being gathered;
- `Scanner.emit`, `Scanner.flush`, `Scanner.named`: tokens shown to the resolver and placed;
- `Scanner.step`: one character with what belongs to it; `scan`: all of them.
-/

namespace InvertedIndex

/-! ## Characters -/

/-- What a character does in a query. -/
inductive CharClass where
  /-- Goes on with a word. -/
  | word
  | star
  | colon
  | question
  /-- Joins what stands on both sides, alone or doubled. -/
  | joint (kind : TokenKind)
  | doubleQuote
  | dot
  /-- A token of the kind, outside quotation marks. -/
  | mark (kind : TokenKind)
  | other
  /-- Drops the character behind it. -/
  | escape
  /-- Ends a word, together with the white space behind it. -/
  | space
  deriving Repr, DecidableEq

/-- The class of a character. -/
def CharClass.of (c : Char) : CharClass :=
  if c.toNat ≤ 0x20 then .space
  else if c = '\x27' then .space
  else if c = '\x60' then .other
  else
    match c with
    | '*' => .star
    | ':' => .colon
    | '?' => .question
    | '&' => .joint .and
    | '|' => .joint .or
    | '"' => .doubleQuote
    | '.' => .dot
    | ',' => .mark .comma
    | '(' => .mark .openParen
    | ')' => .mark .closeParen
    | '{' => .mark .openBrace
    | '}' => .mark .closeBrace
    | '[' => .mark .openBracket
    | ']' => .mark .closeBracket
    | '!' | '=' | '<' | '>' => .mark .comparison
    | '-' | '+' | '/' | '%' | '^' => .mark .operator
    | '#' | '~' | ';' => .other
    | '\\' => .escape
    | _ => .word

/-! ## Tokens -/

/-- A query read so far. -/
structure Scanner where
  outline : Outline := {}
  /-- The word being gathered, last character first. -/
  word : List Char := []
  deriving Repr

namespace Scanner

variable (resolve : Resolver)

/-- Shows a token to the resolver, and places it unless it is to be skipped. -/
def emit (scanner : Scanner) (kind : TokenKind) (text : String) : Scanner :=
  let resolution := resolve text []
  if resolution.action = .skip then scanner
  else
    { scanner with
      outline := scanner.outline.place kind text .normal [] resolution.substitute }

/-- Emits the word being gathered, if there is one, as a token of the kind. -/
def flush (scanner : Scanner) (kind : TokenKind) : Scanner :=
  if scanner.word.isEmpty then scanner
  else { scanner with word := [] }.emit resolve kind (String.ofList scanner.word.reverse)

/-- A star: behind a word it belongs to the word, in braces and elsewhere it is an operator. -/
def star (scanner : Scanner) : Scanner :=
  if scanner.word.isEmpty then scanner.emit resolve .operator "*"
  else if scanner.outline.inside .openBrace then
    (scanner.flush resolve .modifier).emit resolve .operator "*"
  else
    { scanner with word := [] }.emit resolve .modifier (String.ofList ('*' :: scanner.word).reverse)

/-- A colon behind a word: the word names an attribute, whose values follow. -/
def named (scanner : Scanner) (input : List Char) : Scanner × List Char :=
  let name := String.ofList (':' :: scanner.word).reverse
  let (values, behind) := readAttributes input
  let resolution := resolve name values
  let (values, rest) := if resolution.noParams then ([], input) else (values, behind)
  let scanner := { scanner with word := [] }
  if resolution.action = .skip then (scanner, rest)
  else
    ({ scanner with
       outline := scanner.outline.place .word (resolution.param.getD name) resolution.action values
         resolution.substitute }, rest)

/-! ## Steps -/

/-- The input without the character `c` in front of it, if that is there. -/
def dropSame (c : Char) : List Char → List Char
  | d :: rest => if d = c then rest else d :: rest
  | [] => []

/-- Reads a character, with what belongs to it off the rest of the input. -/
def step (scanner : Scanner) (c : Char) (input : List Char) : Scanner × List Char :=
  match CharClass.of c with
  | .word => ({ scanner with word := c :: scanner.word }, input)
  | .star => (scanner.star resolve, input)
  | .colon =>
    if scanner.word.isEmpty then (scanner.emit resolve .colon ":", input)
    else scanner.named resolve input
  | .question => ((scanner.flush resolve .modifier).emit resolve .question "?", input)
  | .joint kind =>
    ((scanner.flush resolve .word).emit resolve kind (String.singleton c), dropSame c input)
  | .doubleQuote => ((scanner.flush resolve .word).emit resolve .doubleQuote "\"", input)
  | .dot =>
    let scanner := scanner.flush resolve .word
    match input with
    | '.' :: d :: rest => (scanner.emit resolve .dash "..", d :: rest)
    | _ => (scanner.emit resolve .other ".", input)
  | .mark kind =>
    let scanner := scanner.flush resolve .word
    let kind := if scanner.outline.inside .doubleQuote then .other else kind
    (scanner.emit resolve kind (String.singleton c), input)
  | .other => ((scanner.flush resolve .word).emit resolve .other (String.singleton c), input)
  | .escape => (scanner.flush resolve .word, input.drop 1)
  | .space =>
    ((scanner.flush resolve .word).emit resolve .space " ", input.dropWhile (·.toNat ≤ 0x20))

theorem named_length (scanner : Scanner) (input : List Char) :
    (scanner.named resolve input).2.length ≤ input.length := by
  have h := readAttributes_length input
  unfold named
  dsimp only
  split <;> split <;> simp_all

/-- A step never lengthens the input. -/
theorem step_length (scanner : Scanner) (c : Char) (input : List Char) :
    (scanner.step resolve c input).2.length ≤ input.length := by
  unfold step
  split
  · exact Nat.le_refl _
  · exact Nat.le_refl _
  · split
    · exact Nat.le_refl _
    · exact named_length resolve scanner input
  · exact Nat.le_refl _
  · cases input with
    | nil => exact Nat.le_refl _
    | cons d rest =>
      simp only [dropSame]
      split
      · exact Nat.le_succ _
      · exact Nat.le_refl _
  · exact Nat.le_refl _
  · dsimp only
    split
    · exact Nat.le_succ _
    · exact Nat.le_refl _
  · exact Nat.le_refl _
  · exact Nat.le_refl _
  · simp
  · exact (List.dropWhile_suffix _).length_le

end Scanner

/-- Reads the whole input. -/
def scanFrom (resolve : Resolver) (scanner : Scanner) (input : List Char) : Scanner :=
  match input with
  | [] => scanner.flush resolve .word
  | c :: rest =>
    let next := scanner.step resolve c rest
    scanFrom resolve next.1 next.2
termination_by input.length
decreasing_by exact Nat.lt_succ_of_le (Scanner.step_length resolve scanner c rest)

/-- The outline of a query. -/
def scan (resolve : Resolver) (input : String) : Outline :=
  (scanFrom resolve {} input.toList).outline

end InvertedIndex
