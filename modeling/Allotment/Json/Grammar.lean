/-!
# Reading past JSON values

A value whose content does not matter is only checked for its form. `Json.skipValue` returns what
follows it. Arrays and objects may nest to any depth, strings may hold any bytes from U+0020 on, a
backslash must begin a known escape, and numbers are not checked for their size.
-/

namespace Allotment

/-- Stored values are byte strings. -/
abbrev Bytes := List UInt8

namespace Json

/-! ### Characters -/

/-- The byte of an ASCII character. -/
def byte (c : Char) : UInt8 :=
  c.toNat.toUInt8

/-- Space, tab, line feed and carriage return stand between tokens. -/
def isBlank (b : UInt8) : Bool :=
  b == 0x20 || b == 0x09 || b == 0x0a || b == 0x0d

/-- What follows the blanks at the start. -/
def skipBlank (s : Bytes) : Bytes :=
  s.dropWhile isBlank

/-- A decimal digit. -/
def isDigit (b : UInt8) : Bool :=
  0x30 ≤ b && b ≤ 0x39

/-- The value of a hexadecimal digit. -/
def hexDigit? (b : UInt8) : Option Nat :=
  if 0x30 ≤ b && b ≤ 0x39 then some (b.toNat - 0x30)
  else if 0x41 ≤ b && b ≤ 0x46 then some (b.toNat - 0x41 + 10)
  else if 0x61 ≤ b && b ≤ 0x66 then some (b.toNat - 0x61 + 10)
  else none

/-- The byte that a one-letter escape stands for. -/
def escape? (b : UInt8) : Option UInt8 :=
  if b == byte '"' then some 0x22
  else if b == byte '\\' then some 0x5c
  else if b == byte '/' then some 0x2f
  else if b == byte 'b' then some 0x08
  else if b == byte 'f' then some 0x0c
  else if b == byte 'n' then some 0x0a
  else if b == byte 'r' then some 0x0d
  else if b == byte 't' then some 0x09
  else none

/-- The number written by four hexadecimal digits at the start, and what follows them. -/
def hex4? : Bytes → Option (Nat × Bytes)
  | a :: b :: c :: d :: rest => do
    let a ← hexDigit? a
    let b ← hexDigit? b
    let c ← hexDigit? c
    let d ← hexDigit? d
    return (((a * 16 + b) * 16 + c) * 16 + d, rest)
  | _ => none

/-! ### Scalars -/

/-- What follows a string, read from behind its opening quote. -/
def skipString : Bytes → Option Bytes
  | [] => none
  | b :: rest =>
    if b == byte '"' then some rest
    else if b == byte '\\' then
      match rest with
      | [] => none
      | e :: rest' =>
        if e == byte 'u' then
          match rest' with
          | h₁ :: h₂ :: h₃ :: h₄ :: rest'' =>
            if [h₁, h₂, h₃, h₄].all fun h => (hexDigit? h).isSome then skipString rest''
            else none
          | _ => none
        else if (escape? e).isSome then skipString rest' else none
    else if b < 0x20 then none
    else skipString rest

/-- What follows at least one digit. -/
def skipDigits : Bytes → Option Bytes
  | [] => none
  | b :: rest => if isDigit b then some (rest.dropWhile isDigit) else none

/-- What follows the digits before the point: no zero stands before another digit. -/
def skipWhole : Bytes → Option Bytes
  | [] => none
  | b :: rest =>
    if b == byte '0' then
      if (rest.head?.map isDigit).getD false then none else some rest
    else skipDigits (b :: rest)

/-- What follows the point and the digits behind it, if there is a point. -/
def skipFraction : Bytes → Option Bytes
  | [] => some []
  | b :: rest => if b == byte '.' then skipDigits rest else some (b :: rest)

/-- What follows the sign of an exponent. -/
def skipSign : Bytes → Bytes
  | [] => []
  | b :: rest => if b == byte '+' || b == byte '-' then rest else b :: rest

/-- What follows the exponent, if there is one. -/
def skipExponent : Bytes → Option Bytes
  | [] => some []
  | b :: rest =>
    if b == byte 'e' || b == byte 'E' then skipDigits (skipSign rest) else some (b :: rest)

/-- What follows a number, read from behind its sign. -/
def skipNumber (s : Bytes) : Option Bytes :=
  ((skipWhole s).bind skipFraction).bind skipExponent

/-- What follows the given word. -/
def skipWord (word : Bytes) (s : Bytes) : Option Bytes :=
  if word.isPrefixOf s then some (s.drop word.length) else none

/-- What follows a scalar. -/
def skipScalar : Bytes → Option Bytes
  | [] => none
  | b :: rest =>
    if b == byte '"' then skipString rest
    else if b == byte '-' then skipNumber rest
    else if isDigit b then skipNumber (b :: rest)
    else if b == byte 'n' then skipWord ("ull".toList.map byte) rest
    else if b == byte 't' then skipWord ("rue".toList.map byte) rest
    else if b == byte 'f' then skipWord ("alse".toList.map byte) rest
    else none

/-! ### Arrays and objects -/

/-- A bracket that has been opened and not yet closed. -/
inductive Bracket where
  | array
  | object
  deriving DecidableEq, Repr

/-- The byte that closes a bracket. -/
def Bracket.closing : Bracket → UInt8
  | .array => byte ']'
  | .object => byte '}'

/-- What follows a field name and its colon. -/
def skipName (s : Bytes) : Option Bytes :=
  match skipBlank s with
  | [] => none
  | b :: rest =>
    if b == byte '"' then
      match (skipString rest).map skipBlank with
      | some (c :: rest') => if c == byte ':' then some rest' else none
      | _ => none
    else none

/-- What follows the name of the next field in an object; in an array there is none. -/
def Bracket.skipLabel (bracket : Bracket) (s : Bytes) : Option Bytes :=
  match bracket with
  | .array => some s
  | .object => skipName s

/-- Reads on inside the open brackets, innermost first, until all of them are closed. A value has
just ended if `ended` holds, and one must begin otherwise. Each step reads at least one byte, so
that `fuel` never runs out if it exceeds the length of the text. -/
def skipInside : (fuel : Nat) → (ended : Bool) → List Bracket → Bytes → Option Bytes
  | 0, _, _, _ => none
  | _ + 1, true, [], s => some s
  | fuel + 1, true, bracket :: outer, s =>
    match skipBlank s with
    | [] => none
    | b :: rest =>
      if b == bracket.closing then skipInside fuel true outer rest
      else if b == byte ',' then
        match bracket.skipLabel rest with
        | none => none
        | some rest' => skipInside fuel false (bracket :: outer) rest'
      else none
  | fuel + 1, false, outer, s =>
    match skipBlank s with
    | [] => none
    | b :: rest =>
      if b == byte '[' || b == byte '\x7b' then
        let bracket := if b == byte '[' then Bracket.array else Bracket.object
        if (skipBlank rest).head? == some bracket.closing then
          skipInside fuel true outer ((skipBlank rest).drop 1)
        else
          match bracket.skipLabel rest with
          | none => none
          | some rest' => skipInside fuel false (bracket :: outer) rest'
      else
        match skipScalar (b :: rest) with
        | none => none
        | some rest' => skipInside fuel true outer rest'

/-- What follows a value. -/
def skipValue (s : Bytes) : Option Bytes :=
  skipInside (s.length + 2) false [] s

end Json

end Allotment
