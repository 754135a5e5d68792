/-!
# Reading — the digits of a number, as far as they fit

The value of a number token is an integer mantissa and a count of decimal places, so that `1.50`
stays different from `1.5` and no digit is rounded.  A mantissa has at most 96 bits and at most 28
places are kept.

`Reading.ofDigits` reads the digits of a numeral.  An integer part of more bits is too large, and
then its places do not matter.  Otherwise places are appended as long as they fit, and the digits
after the last that fits are dropped: the value is cut off towards zero, never rounded.

What becomes of a `Reading` is for a library of decimal numbers to say (`Decimal`).
-/

namespace StyleLex

namespace Reading

/-- The largest mantissa: the largest number of 96 bits. -/
def maxMantissa : Nat := 79228162514264337593543950335

/-- The largest number of decimal places. -/
def maxScale : Nat := 28

end Reading

open Reading in
/-- **What is read of a numeral**, which has a sign before it if `negative`. -/
inductive Reading where
  /-- The integer part has more than 96 bits. -/
  | tooLarge (negative : Bool)
  /-- The digits that fit are those of `mantissa / 10 ^ scale`. -/
  | parts (negative : Bool) (mantissa scale : Nat) (mantissa_le : mantissa ≤ maxMantissa)
      (scale_le : scale ≤ maxScale)
  deriving DecidableEq, Repr

namespace Reading

/-- The value of a digit of ASCII. -/
def digitValue (c : Char) : Nat := c.toNat - '0'.toNat

/-- Append decimal places to the magnitude `m / 10 ^ k` as long as they fit.  The first digit that
does not fit drops all the digits after it too. -/
def appendPlaces : (m k : Nat) → List Char → Nat × Nat
  | m, k, [] => (m, k)
  | m, k, c :: cs =>
    if 10 * m + digitValue c ≤ maxMantissa ∧ k < maxScale then
      appendPlaces (10 * m + digitValue c) (k + 1) cs
    else
      (m, k)

/-- **Appended places stay in bounds.** -/
theorem appendPlaces_le : ∀ (cs : List Char) {m k : Nat}, m ≤ maxMantissa → k ≤ maxScale →
    (appendPlaces m k cs).1 ≤ maxMantissa ∧ (appendPlaces m k cs).2 ≤ maxScale
  | [], _, _, hm, hk => ⟨hm, hk⟩
  | c :: cs, m, k, hm, hk => by
      rw [appendPlaces]
      split
      · next h => exact appendPlaces_le cs h.1 h.2
      · exact ⟨hm, hk⟩

/-- **What is read of a numeral**, given the digits before and after its point. -/
def ofDigits (negative : Bool) (whole places : List Char) : Reading :=
  if h : Nat.ofDigitChars 10 whole 0 ≤ maxMantissa then
    have hle := appendPlaces_le places h (Nat.zero_le maxScale)
    parts negative (appendPlaces (Nat.ofDigitChars 10 whole 0) 0 places).1
      (appendPlaces (Nat.ofDigitChars 10 whole 0) 0 places).2 hle.1 hle.2
  else
    tooLarge negative

/-- The mantissa with its sign. -/
def signed (negative : Bool) (m : Nat) : Int := if negative then -(m : Int) else m

end Reading

end StyleLex
