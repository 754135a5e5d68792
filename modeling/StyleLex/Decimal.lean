import StyleLex.Reading

/-!
# Decimal — the numbers that readings stand for

The lexer reads digits.  The numbers themselves come from a library of decimal numbers, of which it
uses two constants and one operation, and whoever looks at a token prints the number or asks for its
sign, mantissa and scale (`DecimalLibrary`).  Nothing is known of such a library here; what it is
expected to do stands where it is needed.

`Decimal.library` is one, made of a mantissa and a scale.
-/

namespace StyleLex

/-! ## Libraries -/

/-- **A library of decimal numbers**, the numbers being of the type `δ`. -/
structure DecimalLibrary (δ : Type) where
  /-- The largest number. -/
  max : δ
  /-- The smallest number. -/
  min : δ
  /-- The number `mantissa / 10 ^ scale`, unless the library has none. -/
  ofParts? : (mantissa : Int) → (scale : Nat) → Option δ
  /-- Whether the sign is written. -/
  isNegative : δ → Bool
  mantissa : δ → Int
  /-- The number of decimal places. -/
  scale : δ → Nat
  /-- The number in digits. -/
  print : δ → String

namespace DecimalLibrary

variable {δ : Type} (lib : DecimalLibrary δ)

/-- The number of largest magnitude, of either sign. -/
def limit (negative : Bool) : δ := if negative then lib.min else lib.max

/-- The number of a mantissa and a scale.  If the library has none, it is the largest one. -/
def ofParts (mantissa : Int) (scale : Nat) : δ := (lib.ofParts? mantissa scale).getD lib.max

/-- **The number of a reading.** -/
def number : Reading → δ
  | .tooLarge negative => lib.limit negative
  | .parts negative m k _ _ => lib.ofParts (Reading.signed negative m) k

end DecimalLibrary

/-! ## A library -/

open Reading in
/-- **A decimal number**, `mantissa / 10 ^ scale`.  The sign is that of the mantissa, so zero has
none. -/
@[ext]
structure Decimal where
  mantissa : Int
  /-- The number of decimal places. -/
  scale : Nat
  mantissa_le : mantissa.natAbs ≤ maxMantissa
  scale_le : scale ≤ maxScale
  deriving Repr

namespace Decimal

open Reading

instance : DecidableEq Decimal := fun _ _ => decidable_of_iff _ Decimal.ext_iff.symm

/-- The number `m / 10 ^ k`, if it has no more than 96 bits and 28 places. -/
def ofParts? (m : Int) (k : Nat) : Option Decimal :=
  if h : m.natAbs ≤ maxMantissa ∧ k ≤ maxScale then some ⟨m, k, h.1, h.2⟩ else none

/-- The digits of the magnitude, with zeros in front so that one digit at least stands before the
decimal places. -/
def digits (d : Decimal) : List Char :=
  (Nat.toDigits 10 d.mantissa.natAbs).leftpad (d.scale + 1) '0'

/-- The digits before the point. -/
def wholeDigits (d : Decimal) : List Char := d.digits.take (d.digits.length - d.scale)

/-- The digits after the point, one for each decimal place. -/
def placeDigits (d : Decimal) : List Char := d.digits.drop (d.digits.length - d.scale)

/-- The characters of the printed number: a sign below zero, the whole digits, and, if the number
has decimal places, a point and the places. -/
def toChars (d : Decimal) : List Char :=
  (if d.mantissa < 0 then ['-'] else []) ++ d.wholeDigits ++
    (if d.scale = 0 then [] else '.' :: d.placeDigits)

/-- **The library of these numbers.** -/
def library : DecimalLibrary Decimal where
  max := ⟨maxMantissa, 0, Nat.le_refl _, Nat.zero_le _⟩
  min := ⟨-maxMantissa, 0, Nat.le_refl _, Nat.zero_le _⟩
  ofParts? := ofParts?
  isNegative d := d.mantissa < 0
  mantissa := mantissa
  scale := scale
  print d := String.ofList d.toChars

end Decimal

end StyleLex
