import Offload.Text.Extending

/-!
# Quoted text

Text between double quotes in which every character can be seen. Quotes and backslashes
are escaped, five controls have escapes of one letter, and every other character that
cannot be seen or extends the one before it is given by its code point in braces, in
lower-case hexadecimal digits without leading zeros.
-/

namespace Offload.Text

/-- The digits of a number in lower-case hexadecimal, without leading zeros. -/
def hexadecimal (n : Nat) : List Char :=
  Nat.toDigits 16 n

/-- How one character is written between the quotes. -/
def quotedChar (c : Char) : List Char :=
  match c with
  | '\x00' => ['\\', '0']
  | '\t' => ['\\', 't']
  | '\r' => ['\\', 'r']
  | '\n' => ['\\', 'n']
  | '\\' => ['\\', '\\']
  | '"' => ['\\', '"']
  | c =>
    if isExtending c || isUnseen c then
      ['\\', 'u', '\x7b'] ++ hexadecimal c.toNat ++ ['\x7d']
    else [c]

/-- A text in quotes. -/
def quoted (s : String) : String :=
  String.ofList ('"' :: s.toList.flatMap quotedChar ++ ['"'])

end Offload.Text
