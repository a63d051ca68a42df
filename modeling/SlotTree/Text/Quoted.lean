import SlotTree.Text.Extending
import SlotTree.Text.Unprintable

/-! # Quoted text

Text stands between double quotes, and each character is written by an escape rule. Two rules are
in use: one for terms, one for records.
-/

namespace SlotTree.Text

/-- Writes text between quotes, character by character. -/
def quote (escape : Char → List Char) (text : String) : String :=
  String.ofList ('"' :: (text.toList.flatMap escape ++ ['"']))

/-- The lowercase hexadecimal digits of a number, without leading zeros. -/
def hexDigits (n : Nat) : List Char := Nat.toDigits 16 n

/-- In a term, quotes, backslashes and controls below the space are escaped: the common controls by
a letter, the others by four hexadecimal digits. -/
def termEscape (c : Char) : List Char :=
  match c with
  | '"' => ['\\', '"']
  | '\\' => ['\\', '\\']
  | '\n' => ['\\', 'n']
  | '\r' => ['\\', 'r']
  | '\t' => ['\\', 't']
  | '\x08' => ['\\', 'b']
  | '\x0c' => ['\\', 'f']
  | c =>
    if c < ' ' then
      let digits := hexDigits c.toNat
      '\\' :: 'u' :: (List.replicate (4 - digits.length) '0' ++ digits)
    else [c]

/-- In a record, quotes, backslashes and what does not print as a shape of its own are escaped: four
controls by a sign, the others by their hexadecimal number in braces. -/
def recordEscape (c : Char) : List Char :=
  match c with
  | '\x00' => ['\\', '0']
  | '\t' => ['\\', 't']
  | '\r' => ['\\', 'r']
  | '\n' => ['\\', 'n']
  | '"' => ['\\', '"']
  | '\\' => ['\\', '\\']
  | c =>
    if isExtending c || isUnprintable c then
      '\\' :: 'u' :: '\x7b' :: (hexDigits c.toNat ++ ['\x7d'])
    else [c]

end SlotTree.Text
