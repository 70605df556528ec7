import Allotment.Json.Grammar
/-!
# The attribute `R`

Members and items carry one number, the attribute `R` of a JSON object such as `{"R": 3}`.
`Attribute.write` is the shortest form of that object, and `Attribute.read` accepts any JSON object
with exactly one field of that name and any other fields, or an array of exactly that number. The
number is an integer literal in the 64-bit signed range; `-0` and literals with a point or an
exponent are not integers.
-/

namespace Allotment

namespace Attribute

open Json

/-! ### Field names -/

/-- The UTF-8 bytes of a code point. -/
def codePoint (n : Nat) : Bytes :=
  String.utf8EncodeChar (Char.ofNat n)

/-- The bytes that a `\u` escape stands for, and what follows it. Two escapes stand for one
character if their numbers are a pair of surrogates, and a surrogate alone stands for none. -/
def unicodeEscape? (s : Bytes) : Option (Bytes × Bytes) :=
  match hex4? s with
  | none => none
  | some (high, rest) =>
    if high < 0xd800 || 0xe000 ≤ high then some (codePoint high, rest)
    else if 0xdc00 ≤ high then none
    else
      match rest with
      | b :: u :: rest' =>
        if b == byte '\\' && u == byte 'u' then
          match hex4? rest' with
          | none => none
          | some (low, rest'') =>
            if 0xdc00 ≤ low && low < 0xe000 then
              some (codePoint ((high - 0xd800) * 0x400 + (low - 0xdc00) + 0x10000), rest'')
            else none
        else none
      | _ => none

/-- The content of a string and what follows it, read from behind the opening quote. Each step reads
at least one byte, so that `fuel` never runs out if it exceeds the length of the text. -/
def readContent : (fuel : Nat) → Bytes → Option (Bytes × Bytes)
  | 0, _ => none
  | _ + 1, [] => none
  | fuel + 1, b :: rest =>
    if b == byte '"' then some ([], rest)
    else if b == byte '\\' then
      match rest with
      | [] => none
      | e :: rest' =>
        match if e == byte 'u' then unicodeEscape? rest' else (escape? e).map ([·], rest') with
        | none => none
        | some (bytes, rest'') => (readContent fuel rest'').map fun c => (bytes ++ c.1, c.2)
    else if b < 0x20 then none
    else (readContent fuel rest).map fun c => (b :: c.1, c.2)

/-- A byte string that is well-formed UTF-8. -/
def isText (s : Bytes) : Bool :=
  ByteArray.validateUTF8 ⟨s.toArray⟩

/-- A field name and what follows its colon, read from the opening quote on. -/
def readName : Bytes → Option (Bytes × Bytes)
  | [] => none
  | b :: rest =>
    if b == byte '"' then
      match readContent (rest.length + 1) rest with
      | some (name, rest') =>
        match skipBlank rest' with
        | c :: rest'' => if c == byte ':' && isText name then some (name, rest'') else none
        | [] => none
      | none => none
    else none

/-! ### The number -/

/-- The value of a row of digits. -/
def digitsValue (s : Bytes) : Nat :=
  s.foldl (fun n b => n * 10 + (b.toNat - 0x30)) 0

/-- A number that goes on with a point or an exponent is no integer. -/
def endsInteger (s : Bytes) : Bool :=
  match s with
  | [] => true
  | b :: _ => !(b == byte '.' || b == byte 'e' || b == byte 'E')

/-- The digits of an integer literal and what follows them, read from behind the sign. -/
def readDigits (s : Bytes) : Option (Nat × Bytes) :=
  match skipWhole s with
  | some rest => if endsInteger rest then some (digitsValue (s.takeWhile isDigit), rest) else none
  | none => none

/-- The magnitude of the least 64-bit signed number. -/
def signBit : Nat :=
  UInt64.size / 2

/-- An integer literal in the 64-bit signed range, and what follows it. -/
def readInteger (s : Bytes) : Option (Int × Bytes) :=
  match skipBlank s with
  | [] => none
  | b :: rest =>
    if b == byte '-' then
      match readDigits rest with
      | some (n, rest') => if 0 < n && n ≤ signBit then some (-(n : Int), rest') else none
      | none => none
    else
      match readDigits (b :: rest) with
      | some (n, rest') => if n < signBit then some ((n : Int), rest') else none
      | none => none

/-! ### The object -/

/-- The name of the attribute. -/
def name : Bytes :=
  [byte 'R']

/-- The attribute among the fields of an object and what follows the object, read from a field name
on. The attribute is `found` if it stood among the fields before. Each step reads at least one byte,
so that `fuel` never runs out if it exceeds the length of the text. -/
def readFields : (fuel : Nat) → (found : Option Int) → Bytes → Option (Int × Bytes)
  | 0, _, _ => none
  | fuel + 1, found, s =>
    match readName (skipBlank s) with
    | none => none
    | some (field, rest) =>
      let value : Option (Option Int × Bytes) :=
        if field == name then
          if found.isSome then none else (readInteger rest).map fun r => (some r.1, r.2)
        else (skipValue rest).map (found, ·)
      match value with
      | none => none
      | some (found, rest) =>
        match skipBlank rest with
        | [] => none
        | b :: rest =>
          if b == byte '\x7d' then found.map (·, rest)
          else if b == byte ',' then readFields fuel found rest
          else none

/-- The attribute and what follows the value that carries it. -/
def readCarrier (s : Bytes) : Option (Int × Bytes) :=
  match skipBlank s with
  | [] => none
  | b :: rest =>
    if b == byte '\x7b' then readFields (rest.length + 1) none rest
    else if b == byte '[' then
      match readInteger rest with
      | some (n, rest') =>
        match skipBlank rest' with
        | c :: rest'' => if c == byte ']' then some (n, rest'') else none
        | [] => none
      | none => none
    else none

/-- The attribute that a whole value carries. -/
def read (s : Bytes) : Option Int :=
  match readCarrier s with
  | some (n, rest) => if (skipBlank rest).isEmpty then some n else none
  | none => none

/-- The shortest value that carries the attribute. -/
def write (n : Nat) : Bytes :=
  [byte '\x7b', byte '"', byte 'R', byte '"', byte ':'] ++ (Nat.toDigits 10 n).map byte ++
    [byte '\x7d']

end Attribute

end Allotment
