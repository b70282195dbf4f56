import InvertedIndex.Proofs.Catalog

/-!
# `Proofs.Query.Grammar` — the language of queries

Queries without quotation marks are generated by a small grammar:

* a **request** has pieces, separated by `or` or `|`;
* a **piece** has items and negated items, at least one of them not negated;
* an **item** is a word, a stem `word*`, one value `name:value` or several `name:[v,w]` of an
  attribute, or a request in parentheses.

This module says how a request is written, which tokens that is, and which documents it asks for.

## Contents
- `Word`, `Separator`, `Negation`, `Leaf`: what is written without a space;
- `Item`, `Parts`, `Piece`, `Request`: the grammar;
- `Lexeme`, `Request.lexemes`, `Request.text`: how a request is written;
- `Request.tokens`: its tokens, with those in parentheses as children;
- `Contents.ids`, `Request.denote`: the documents that it asks for.
-/

namespace InvertedIndex
namespace Grammar

/-! ## What is written without a space -/

/-- At least one character, none of them with an effect of its own. -/
structure Word where
  characters : List Char
  nonempty : characters ≠ []
  plain : ∀ c ∈ characters, CharClass.of c = .word

/-- The word as a text. -/
def Word.text (word : Word) : String := String.ofList word.characters

/-- Whether a word spells the name of an operator, in letters of any case. -/
def Word.Spells (word : Word) (name : List Char) : Prop := word.characters.map Char.toLower = name

instance (word : Word) (name : List Char) : Decidable (word.Spells name) :=
  inferInstanceAs (Decidable (word.characters.map Char.toLower = name))

/-- What stands between two pieces. -/
inductive Separator where
  | bar
  | word (spelling : Word) (spells : spelling.Spells ['o', 'r'])

/-- What stands before a negated item. -/
structure Negation where
  spelling : Word
  spells : spelling.Spells ['n', 'o', 't']

/-- An item without parentheses. -/
inductive Leaf where
  | word (word : Word) (notOr : ¬ word.Spells ['o', 'r']) (notNot : ¬ word.Spells ['n', 'o', 't'])
  | stem (stem : Word)
  | named (name value : Word)
  | listed (name value : Word) (more : List Word)

/-- Whether a leaf is written without attribute values. -/
def Leaf.Bare : Leaf → Prop
  | .word _ _ _ | .stem _ => True
  | .named _ _ | .listed _ _ _ => False

/-! ## The grammar -/

mutual

/-- What is looked for. -/
inductive Item where
  | leaf (leaf : Leaf)
  | group (request : Request)

/-- Items and negated items, in any order. -/
inductive Parts where
  | nil
  | item (item : Item) (rest : Parts)
  | not (negation : Negation) (item : Item) (rest : Parts)

/-- Parts with an item among them that is not negated. -/
inductive Piece where
  | mk (before : Parts) (item : Item) (after : Parts)

/-- Pieces with separators between them. -/
inductive Request where
  | piece (piece : Piece)
  | or (piece : Piece) (separator : Separator) (rest : Request)

end

/-- Induction on the parts behind. -/
@[elab_as_elim, induction_eliminator]
theorem Parts.induction {motive : Parts → Prop} (nil : motive .nil)
    (item : ∀ item rest, motive rest → motive (.item item rest))
    (not : ∀ negation item rest, motive rest → motive (.not negation item rest)) :
    (parts : Parts) → motive parts
  | .nil => nil
  | .item i rest => item i rest (rest.induction nil item not)
  | .not n i rest => not n i rest (rest.induction nil item not)

/-- Induction on the pieces behind. -/
@[elab_as_elim, induction_eliminator]
theorem Request.induction {motive : Request → Prop} (piece : ∀ piece, motive (.piece piece))
    (or : ∀ piece separator rest, motive rest → motive (.or piece separator rest)) :
    (request : Request) → motive request
  | .piece p => piece p
  | .or p separator rest => or p separator rest (rest.induction piece or)

/-! ## Writing -/

/-- What is written between two spaces. -/
inductive Lexeme where
  | leaf (leaf : Leaf)
  | opening
  | closing
  | negation (negation : Negation)
  | separator (separator : Separator)

/-- The characters of a leaf. -/
def Leaf.characters : Leaf → List Char
  | .word w _ _ => w.characters
  | .stem s => s.characters ++ ['*']
  | .named name value => name.characters ++ ':' :: value.characters
  | .listed name value more =>
    name.characters ++ ':' :: '[' :: (value.characters
      ++ more.flatMap (fun value => ',' :: value.characters) ++ [']'])

/-- The characters of a lexeme. -/
def Lexeme.characters : Lexeme → List Char
  | .leaf l => l.characters
  | .opening => ['(']
  | .closing => [')']
  | .negation n => n.spelling.characters
  | .separator .bar => ['|']
  | .separator (.word spelling _) => spelling.characters

mutual

/-- The lexemes of an item. -/
def Item.lexemes : Item → List Lexeme
  | .leaf l => [.leaf l]
  | .group request => .opening :: (request.lexemes ++ [.closing])

/-- The lexemes of parts. -/
def Parts.lexemes : Parts → List Lexeme
  | .nil => []
  | .item i rest => i.lexemes ++ rest.lexemes
  | .not n i rest => .negation n :: (i.lexemes ++ rest.lexemes)

/-- The lexemes of a piece. -/
def Piece.lexemes : Piece → List Lexeme
  | .mk before item after => before.lexemes ++ (item.lexemes ++ after.lexemes)

/-- The lexemes of a request. -/
def Request.lexemes : Request → List Lexeme
  | .piece p => p.lexemes
  | .or p separator rest => p.lexemes ++ .separator separator :: rest.lexemes

end

/-- The text of a request: its lexemes with single spaces between them. -/
def Request.text (request : Request) : String :=
  String.ofList ([' '].intercalate (request.lexemes.map Lexeme.characters))

/-! ## Tokens -/

/-- The token of an attribute with some values. The name keeps its colon. -/
def attributeToken (name : Word) (values : List String) : Token :=
  { kind := .word, text := String.ofList (name.characters ++ [':']), attrs := values }

/-- The token of a leaf. -/
def Leaf.token : Leaf → Token
  | .word w _ _ => { kind := .word, text := w.text }
  | .stem s => { kind := .modifier, text := String.ofList (s.characters ++ ['*']) }
  | .named name value => attributeToken name [value.text]
  | .listed name value more => attributeToken name ((value :: more).map Word.text)

/-- The token of a separator, before any rearrangement. -/
def Separator.token : Separator → Token
  | .bar => { kind := .or, text := "|" }
  | .word spelling _ => { kind := .word, text := spelling.text }

/-- The token of a negation, before any rearrangement. -/
def Negation.token (negation : Negation) : Token := { kind := .word, text := negation.spelling.text }

mutual

/-- The token of an item. -/
def Item.token : Item → Token
  | .leaf l => l.token
  | .group request => Token.paren request.tokens

/-- The tokens of parts. -/
def Parts.tokens : Parts → List Token
  | .nil => []
  | .item i rest => i.token :: rest.tokens
  | .not n i rest => n.token :: i.token :: rest.tokens

/-- The tokens of a piece. -/
def Piece.tokens : Piece → List Token
  | .mk before item after => before.tokens ++ item.token :: after.tokens

/-- The tokens of a request. -/
def Request.tokens : Request → List Token
  | .piece p => p.tokens
  | .or p separator rest => p.tokens ++ separator.token :: rest.tokens

end

/-! ## What is asked for -/

end Grammar

/-- The documents under a term. -/
def Contents.ids (contents : Contents) (term : String) : Set DocId :=
  {id | term ∈ contents.terms ∧ ∃ hit ∈ contents.hits term, hit.id = id}

namespace Grammar

variable (contents : Contents)

/-- The documents under the term of an attribute with a value. -/
def attributeIds (name value : Word) : Set DocId :=
  contents.ids (name.text ++ ":" ++ value.text)

/-- The documents that a leaf asks for. -/
def Leaf.denote : Leaf → Set DocId
  | .word w _ _ => contents.ids w.text
  | .stem s => {id | ∃ term ∈ contents.terms, s.characters <+: term.toList ∧
      id ∈ contents.ids term}
  | .named name value => attributeIds contents name value
  | .listed name value more => {id | ∃ v ∈ value :: more, id ∈ attributeIds contents name v}

mutual

/-- The documents that an item asks for. -/
def Item.denote : Item → Set DocId
  | .leaf l => l.denote contents
  | .group request => request.denote

/-- The documents that all items ask for which are not negated. -/
def Parts.meet : Parts → Set DocId
  | .nil => Set.univ
  | .item i rest => i.denote ∩ rest.meet
  | .not _ _ rest => rest.meet

/-- The documents that any negated item asks for. -/
def Parts.join : Parts → Set DocId
  | .nil => ∅
  | .item _ rest => rest.join
  | .not _ i rest => i.denote ∪ rest.join

/-- The documents that a piece asks for: what all items ask for, less what any negated item does. -/
def Piece.denote : Piece → Set DocId
  | .mk before item after =>
    (before.meet ∩ item.denote ∩ after.meet) \ (before.join ∪ after.join)

/-- The documents that a request asks for: those of any of its pieces. -/
def Request.denote : Request → Set DocId
  | .piece p => p.denote
  | .or p _ rest => p.denote ∪ rest.denote

end

end Grammar
end InvertedIndex
