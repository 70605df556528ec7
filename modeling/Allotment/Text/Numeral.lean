/-!
# Decimal numerals below a limit

`Numeral.write` is the decimal text of a number, and `Numeral.read` accepts an optional single `+`
followed by decimal digits whose value stays below a limit. Digits are looked at from left to right
and the first fault is reported; at one position a character that is no digit is reported before a
value that has become too large.
-/

namespace Allotment

namespace Numeral

/-- Why a text is not a numeral below the limit. -/
inductive Fault where
  | empty
  | invalidDigit
  | tooLarge
  deriving DecidableEq, Repr

/-- The wording of a fault. -/
def Fault.message : Fault → String
  | .empty => "cannot parse integer from empty string"
  | .invalidDigit => "invalid digit found in string"
  | .tooLarge => "number too large to fit in target type"

/-- The value of a decimal digit. -/
def digit? (c : Char) : Option Nat :=
  if c.isDigit then some (c.toNat - '0'.toNat) else none

/-- The value of `acc` followed by the given digits, as long as it stays below `limit`. -/
def readDigits (limit : Nat) : List Char → Nat → Except Fault Nat
  | [], acc => .ok acc
  | c :: cs, acc =>
    match digit? c with
    | none => .error .invalidDigit
    | some d =>
      if acc * 10 + d < limit then readDigits limit cs (acc * 10 + d) else .error .tooLarge

/-- The value of a numeral below `limit`. -/
def read (limit : Nat) : List Char → Except Fault Nat
  | [] => .error .empty
  | ['+'] => .error .invalidDigit
  | '+' :: cs => readDigits limit cs 0
  | cs => readDigits limit cs 0

/-- The decimal digits of a number, without leading zeros. -/
def write (n : Nat) : List Char :=
  Nat.toDigits 10 n

/-- The decimal text of a number. -/
def text (n : Nat) : String :=
  String.ofList (write n)

/-- The decimal text of a number, with zeros in front up to a width. -/
def padded (width n : Nat) : String :=
  String.ofList (List.replicate (width - (write n).length) '0' ++ write n)

/-- The decimal text of an integer, with a leading `-` below zero. -/
def signed : Int → String
  | .ofNat n => text n
  | .negSucc n => "-" ++ text (n + 1)

end Numeral

end Allotment
