import Allotment.Text.Unprintable
/-!
# Quoted text

A key is shown in messages between double quotes. The quote, the backslash, tab, line feed, carriage
return and NUL have a two-character escape; a character without a visible form is written by its
code point in lower-case hexadecimal, as in `\u{301}`; every other character stands for itself.
-/

namespace Allotment

namespace Quoted

/-- The written form of one character. -/
def encodeChar (c : Char) : List Char :=
  if c = '"' then ['\\', '"']
  else if c = '\\' then ['\\', '\\']
  else if c = '\t' then ['\\', 't']
  else if c = '\n' then ['\\', 'n']
  else if c = '\r' then ['\\', 'r']
  else if c.toNat = 0 then ['\\', '0']
  else if isUnprintable c then
    ['\\', 'u', '\x7b'] ++ Nat.toDigits 16 c.toNat ++ ['\x7d']
  else [c]

/-- A text between quotes. -/
def encode (s : String) : String :=
  String.ofList ('"' :: s.toList.flatMap encodeChar ++ ['"'])

end Quoted

end Allotment
