import Allotment.Json.Attribute
import Mathlib.Tactic.IntervalCases

/-!
# The attribute reads back

What `Attribute.write` has written, `Attribute.read` reads as the same number, if it is in the 64-bit signed
range (`Attribute.read_write`).  A number is written without zeros in front, as an integer literal must be
(`skipWhole_decimal`), and the value of its digits is the number (`digitsValue_decimal`).
-/

namespace Allotment

namespace Attribute

open Json

/-- The digits of a number, as they are written. -/
def decimal (n : Nat) : Bytes :=
  (Nat.toDigits 10 n).map byte

/-! ### Digits -/

theorem toNat_byte {c : Char} (hc : c.isDigit) : (byte c).toNat = c.toNat := by
  have h := (Char.isDigit_iff_toNat.1 hc).2
  have hlt : c.toNat < 256 := Nat.lt_of_le_of_lt h (by decide)
  simp [byte, Nat.mod_eq_of_lt hlt]

theorem isDigit_byte {c : Char} (hc : c.isDigit) : isDigit (byte c) = true := by
  obtain ⟨hlow, hhigh⟩ := Char.isDigit_iff_toNat.1 hc
  unfold isDigit
  rw [Bool.and_eq_true, decide_eq_true_eq, decide_eq_true_eq, UInt8.le_iff_toNat_le,
    UInt8.le_iff_toNat_le, toNat_byte hc]
  exact ⟨hlow, hhigh⟩

theorem isDigit_of_mem_decimal {n : Nat} {b : UInt8} (hb : b ∈ decimal n) : isDigit b = true := by
  obtain ⟨c, hc, rfl⟩ := List.mem_map.1 hb
  exact isDigit_byte (Nat.isDigit_of_mem_toDigits (by decide) (by decide) hc)

theorem digitsValue_decimal (n : Nat) : digitsValue (decimal n) = n := by
  have hfold : ∀ (cs : List Char) (acc : Nat), (∀ c ∈ cs, c.isDigit) →
      (cs.map byte).foldl (fun n b => n * 10 + (b.toNat - 0x30)) acc = Nat.ofDigitChars 10 cs acc := by
    intro cs
    induction cs with
    | nil => exact fun acc _ => rfl
    | cons c cs ih =>
      intro acc hcs
      obtain ⟨hc, hrest⟩ := List.forall_mem_cons.1 hcs
      rw [List.map_cons, List.foldl_cons, ih _ hrest, toNat_byte hc, Nat.ofDigitChars_cons, Nat.mul_comm]
      rfl
  unfold digitsValue decimal
  rw [hfold _ _ fun c hc => Nat.isDigit_of_mem_toDigits (by decide) (by decide) hc]
  exact Nat.ofDigitChars_ten_toDigits

/-- No other number than zero begins with a zero. -/
theorem exists_decimal_eq_cons {n : Nat} (hn : 0 < n) :
    ∃ b bs, decimal n = b :: bs ∧ (b == byte '0') = false := by
  induction n using Nat.strongRecOn with
  | ind n ih =>
    unfold decimal at ih ⊢
    rw [Nat.toDigits_eq_if (by decide)]
    split
    next hlt =>
      refine ⟨_, [], rfl, ?_⟩
      interval_cases n <;> decide
    next hle =>
      obtain ⟨b, bs, heq, hb⟩ := ih (n / 10) (by omega) (by omega)
      exact ⟨b, bs ++ [byte (Nat.digitChar (n % 10))], by rw [List.map_append, heq]; rfl, hb⟩

theorem decimal_ne_nil (n : Nat) : decimal n ≠ [] :=
  fun h => Nat.toDigits_ne_nil (List.map_eq_nil_iff.1 h)

theorem beq_eq_false_of_isDigit {b c : UInt8} (hb : isDigit b = true) (hc : isDigit c = false) :
    (b == c) = false := by
  rw [beq_eq_false_iff_ne]
  rintro rfl
  exact nomatch hb.symm.trans hc

theorem isBlank_of_isDigit {b : UInt8} (hb : isDigit b = true) : isBlank b = false := by
  unfold isBlank
  rw [beq_eq_false_of_isDigit hb rfl, beq_eq_false_of_isDigit hb rfl, beq_eq_false_of_isDigit hb rfl,
    beq_eq_false_of_isDigit hb rfl]
  rfl

/-! ### The number -/

variable {n : Nat} {b : UInt8} {rest : Bytes}

theorem takeWhile_decimal (hb : isDigit b = false) :
    (decimal n ++ b :: rest).takeWhile isDigit = decimal n := by
  rw [List.takeWhile_append_of_pos fun _ => isDigit_of_mem_decimal, List.takeWhile_cons_of_neg (by simp [hb]),
    List.append_nil]

/-- The digits of a number are those of an integer literal. -/
theorem skipWhole_decimal (hb : isDigit b = false) : skipWhole (decimal n ++ b :: rest) = some (b :: rest) := by
  rcases Nat.eq_zero_or_pos n with rfl | hpos
  · show skipWhole (byte '0' :: b :: rest) = _
    unfold skipWhole
    simp [hb]
  · obtain ⟨d, ds, heq, hd⟩ := exists_decimal_eq_cons hpos
    have hdigits : ∀ x ∈ d :: ds, isDigit x = true := fun x hx => isDigit_of_mem_decimal (heq ▸ hx)
    obtain ⟨hfirst, hrest⟩ := List.forall_mem_cons.1 hdigits
    rw [heq, List.cons_append]
    unfold skipWhole skipDigits
    simp only [hd, Bool.false_eq_true, ↓reduceIte, hfirst]
    rw [List.dropWhile_append_of_pos hrest, List.dropWhile_cons_of_neg (by simp [hb])]

theorem readInteger_decimal (hn : n < signBit) (hb : isDigit b = false)
    (hend : endsInteger (b :: rest) = true) :
    readInteger (decimal n ++ b :: rest) = some ((n : Int), b :: rest) := by
  have hdigits : readDigits (decimal n ++ b :: rest) = some (n, b :: rest) := by
    unfold readDigits
    simp only [skipWhole_decimal hb, takeWhile_decimal hb, hend, ↓reduceIte, digitsValue_decimal]
  obtain ⟨d, ds, heq⟩ := List.exists_cons_of_ne_nil (decimal_ne_nil n)
  have hd : isDigit d = true := isDigit_of_mem_decimal (heq ▸ List.mem_cons_self)
  rw [heq, List.cons_append] at hdigits ⊢
  unfold readInteger skipBlank
  rw [List.dropWhile_cons_of_neg (by simp [isBlank_of_isDigit hd])]
  have hsign : (d == byte '-') = false := beq_eq_false_of_isDigit hd rfl
  simp only [hsign, hdigits, hn, Bool.false_eq_true, ↓reduceIte]

/-! ### The object -/

theorem readName_name (s : Bytes) :
    readName (byte '"' :: byte 'R' :: byte '"' :: byte ':' :: s) = some (name, s) := by
  have hcontent : readContent ((byte 'R' :: byte '"' :: byte ':' :: s).length + 1)
      (byte 'R' :: byte '"' :: byte ':' :: s) = some (name, byte ':' :: s) := rfl
  have htext : isText name = true := by decide +kernel
  have hcolon : skipBlank (byte ':' :: s) = byte ':' :: s := rfl
  unfold readName
  simp only [beq_self_eq_true, ↓reduceIte, hcontent, hcolon, htext, Bool.and_self]

/-- What has been written is read as the same number. -/
theorem read_write (hn : n < signBit) : read (write n) = some (n : Int) := by
  have hinteger : readInteger (decimal n ++ [byte '\x7d']) = some ((n : Int), [byte '\x7d']) :=
    readInteger_decimal hn rfl rfl
  have hfields : ∀ fuel, readFields (fuel + 1) none
      (byte '"' :: byte 'R' :: byte '"' :: byte ':' :: (decimal n ++ [byte '\x7d'])) = some ((n : Int), []) := by
    intro fuel
    have hopen : skipBlank (byte '"' :: byte 'R' :: byte '"' :: byte ':' :: (decimal n ++ [byte '\x7d'])) =
      byte '"' :: byte 'R' :: byte '"' :: byte ':' :: (decimal n ++ [byte '\x7d']) := rfl
    have hclosed : skipBlank [byte '\x7d'] = [byte '\x7d'] := rfl
    unfold readFields
    simp only [hopen, readName_name, beq_self_eq_true, ↓reduceIte, hinteger, Option.isSome_none,
      Bool.false_eq_true, Option.map_some, hclosed]
  have hcarrier : readCarrier (write n) = some ((n : Int), []) := hfields _
  unfold read
  rw [hcarrier]
  rfl

end Attribute

end Allotment
