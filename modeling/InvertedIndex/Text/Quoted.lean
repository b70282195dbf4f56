import InvertedIndex.Text.Printable

/-!
# `InvertedIndex.Text.Quoted` — text between quotation marks

Messages show a text between double quotes. A quote and a backslash in it are escaped, the common
control characters have escapes of their own, and any other character that does not show as itself
is written as its code point in hexadecimal.
-/

namespace InvertedIndex
namespace Text

/-- The lowercase hexadecimal digits of a number, without leading zeros. -/
def hexDigits (n : Nat) : List Char := Nat.toDigits 16 n

/-- A character as it stands between double quotes. -/
def quotedChar (c : Char) : List Char :=
  if c = '\x00' then ['\\', '0']
  else if c = '\t' then ['\\', 't']
  else if c = '\r' then ['\\', 'r']
  else if c = '\n' then ['\\', 'n']
  else if c = '"' || c = '\\' then ['\\', c]
  else if isPrintable c then [c]
  else ['\\', 'u', '\x7b'] ++ hexDigits c.toNat ++ ['\x7d']

/-- A text between double quotes. -/
def quoted (text : String) : String :=
  String.ofList ('"' :: text.toList.flatMap quotedChar ++ ['"'])

end Text
end InvertedIndex
