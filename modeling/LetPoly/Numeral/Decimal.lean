import LetPoly.Numeral

/-! # Decimal text of integers

Integers are written with decimal digits, after a minus sign if they are
negative.  Reading accepts a plus sign too and any number of leading zeros, and
reads into 64 bits only the integers that fit there.  What is written is read
back (`Numeral.int64?_decimal`).
-/

namespace LetPoly.Numeral

/-- The ten decimal digits. -/
def isDecimalDigit (c : Char) : Bool :=
  '0' ≤ c && c ≤ '9'

/-- The decimal digit that denotes `d`. -/
def decimalDigit (d : Nat) : Char :=
  Char.ofNat ('0'.toNat + d)

/-- The number that a decimal digit denotes. -/
def decimalDigitValue (c : Char) : Nat :=
  c.toNat - '0'.toNat

/-- The decimal digits of a natural number. -/
def decimalDigits (n : Nat) : List Char :=
  (digits 10 n).map decimalDigit

/-- The decimal text of an integer. -/
def decimal (i : Int) : String :=
  String.ofList (if i < 0 then '-' :: decimalDigits i.natAbs else decimalDigits i.natAbs)

/-- The natural number written by decimal digits.  There must be one at least. -/
def natural? (cs : List Char) : Option Nat :=
  if cs ≠ [] ∧ cs.all isDecimalDigit then some (value 10 (cs.map decimalDigitValue)) else none

/-- The integer written by decimal digits, with or without a sign before them. -/
def integer? : List Char → Option Int
  | '-' :: cs => (natural? cs).map fun n : Nat => -(n : Int)
  | '+' :: cs => (natural? cs).map fun n : Nat => (n : Int)
  | cs => (natural? cs).map fun n : Nat => (n : Int)

/-- The integer that a decimal text denotes, if it fits in 64 bits. -/
def int64? (text : String) : Option Int64 :=
  (integer? text.toList).bind fun i =>
    if Int64.minValue.toInt ≤ i ∧ i ≤ Int64.maxValue.toInt then some (Int64.ofInt i) else none

/-! ## What is written is read back -/

theorem decimalDigitValue_decimalDigit :
    ∀ {d : Nat}, d < 10 → decimalDigitValue (decimalDigit d) = d := by
  decide

theorem isDecimalDigit_decimalDigit :
    ∀ {d : Nat}, d < 10 → isDecimalDigit (decimalDigit d) = true := by
  decide

theorem isDecimalDigit_of_mem {n : Nat} {c : Char} (h : c ∈ decimalDigits n) :
    isDecimalDigit c = true := by
  obtain ⟨d, hd, rfl⟩ := List.mem_map.mp h
  exact isDecimalDigit_decimalDigit (lt_of_mem_digits (by omega) hd)

/-- Also zero is written with a digit. -/
theorem decimalDigits_ne_nil (n : Nat) : decimalDigits n ≠ [] := by
  intro h
  exact digits_ne_nil 10 n (List.map_eq_nil_iff.mp h)

/-- Reading the digits of a natural number gives it back. -/
theorem natural?_decimalDigits (n : Nat) : natural? (decimalDigits n) = some n := by
  have hall : (decimalDigits n).all isDecimalDigit = true :=
    List.all_eq_true.mpr fun _ hc => isDecimalDigit_of_mem hc
  have hmap : (digits 10 n).map (decimalDigitValue ∘ decimalDigit) = digits 10 n := by
    refine (List.map_congr_left fun d hd => ?_).trans (List.map_id _)
    exact decimalDigitValue_decimalDigit (lt_of_mem_digits (by omega) hd)
  rw [natural?, if_pos ⟨decimalDigits_ne_nil n, hall⟩, decimalDigits, List.map_map, hmap,
    value_digits]

/-- Reading the decimal form of an integer gives it back, signs included. -/
theorem integer?_decimal (i : Int) : integer? (decimal i).toList = some i := by
  rw [decimal, String.toList_ofList]
  split
  · rw [integer?, natural?_decimalDigits]
    have hneg : -(i.natAbs : Int) = i := by omega
    exact congrArg some hneg
  · have hdigit : ∀ c cs, decimalDigits i.natAbs = c :: cs → isDecimalDigit c = true := by
      intro c cs h
      exact isDecimalDigit_of_mem (h ▸ List.mem_cons_self : c ∈ decimalDigits i.natAbs)
    rw [integer?, natural?_decimalDigits]
    · have hnonneg : (i.natAbs : Int) = i := by omega
      exact congrArg some hnonneg
    · exact fun cs h => absurd (hdigit '-' cs h) (by decide)
    · exact fun cs h => absurd (hdigit '+' cs h) (by decide)

/-- The decimal form of a number in range reads as that number. -/
theorem int64?_decimal (n : Int64) : int64? (decimal n.toInt) = some n := by
  rw [int64?, integer?_decimal, Option.bind_some,
    if_pos ⟨Int64.minValue_le_toInt n, Int64.toInt_le n⟩, Int64.ofInt_toInt]

end LetPoly.Numeral
