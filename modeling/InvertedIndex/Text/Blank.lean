/-!
# `InvertedIndex.Text.Blank` — white space and lines

Configuration text is read line by line, and words in it are separated by white space. Two notions
of white space occur: the characters with the Unicode property `White_Space`, and the five of them
in ASCII that separate fields.

## Contents
- `isBlank`, `isFieldBreak`: the two classes;
- `trimStart`, `splitField?`: white space off the front, a field off the front;
- `lines`: the lines of a text.
-/

namespace InvertedIndex
namespace Text

/-- A character with the Unicode property `White_Space`. -/
def isBlank (c : Char) : Bool :=
  let n := c.toNat
  (9 ≤ n && n ≤ 13) || n = 0x20 || n = 0x85 || n = 0xA0 || n = 0x1680 || (0x2000 ≤ n && n ≤ 0x200A)
    || n = 0x2028 || n = 0x2029 || n = 0x202F || n = 0x205F || n = 0x3000

/-- A character that ends a field: a space, tab, line feed, form feed or carriage return. -/
def isFieldBreak (c : Char) : Bool :=
  c = ' ' || c = '\t' || c = '\n' || c = '\x0c' || c = '\r'

/-- Text without the white space in front. -/
def trimStart (text : List Char) : List Char := text.dropWhile isBlank

/-- The field in front of the first break and the text after that one break; `none` without a
    break. -/
def splitField? : List Char → Option (List Char × List Char)
  | [] => none
  | c :: rest =>
    if isFieldBreak c then some ([], rest)
    else (splitField? rest).map fun (field, after) => (c :: field, after)

/-- A line without the carriage return that ends it. -/
def dropReturn (line : List Char) : List Char :=
  if line.getLast? = some '\r' then line.dropLast else line

/-- Cuts at line feeds: the lines that one ends, each without a carriage return before it, then the
    rest as it is unless it is empty. `line` holds the characters of the current line, last one
    first. -/
def linesFrom (line : List Char) : List Char → List (List Char)
  | [] => if line.isEmpty then [] else [line.reverse]
  | c :: rest =>
    if c = '\n' then dropReturn line.reverse :: linesFrom [] rest else linesFrom (c :: line) rest

/-- The lines of a text. -/
def lines (text : List Char) : List (List Char) := linesFrom [] text

end Text
end InvertedIndex
