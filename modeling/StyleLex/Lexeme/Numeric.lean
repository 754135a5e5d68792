import StyleLex.Lexeme.Basic

/-!
# Lexeme/Numeric — numbers, percentages and dimensions

A numeral is a run of digits, which a point and another run, possibly empty, may follow.  A percent
sign after it makes a percentage and letters make a dimension with the letters as its unit; there
is no exponent, so `2e3` is 2 with the unit `e` and then 3.
-/

namespace StyleLex

open Chars

/-- **The digits of a number.** -/
structure Numeral where
  /-- The digits before the point. -/
  whole : List Char
  /-- The digits after the point, if there is one. -/
  places : Option (List Char)
  deriving DecidableEq, Repr

namespace Numeral

/-- The characters of a numeral. -/
def chars (n : Numeral) : List Char :=
  match n.places with
  | none => n.whole
  | some places => n.whole ++ '.' :: places

/-- What is read of a numeral, with a sign before it if `negative`. -/
def value (n : Numeral) (negative : Bool) : Reading :=
  Reading.ofDigits negative n.whole (n.places.getD [])

/-- The longest numeral at the beginning of `cs`, and what follows it. -/
def read (cs : List Char) : Numeral × List Char :=
  match cs.dropWhile isDigit with
  | '.' :: rest => (⟨cs.takeWhile isDigit, some (rest.takeWhile isDigit)⟩, rest.dropWhile isDigit)
  | rest => (⟨cs.takeWhile isDigit, none⟩, rest)

/-- **A numeral and its rest are all there is.** -/
theorem chars_read (cs : List Char) : (read cs).1.chars ++ (read cs).2 = cs := by
  have h := List.takeWhile_append_dropWhile (p := isDigit) (l := cs)
  unfold read
  split
  · next rest hrest =>
    rw [hrest] at h
    simpa [chars] using h
  · exact h

end Numeral

namespace Lexeme

/-- The number, percentage or dimension whose digits `cs` begins with, a `-` standing before them
if `negative`. -/
def numeric (negative : Bool) (cs : List Char) : Lexeme :=
  let (numeral, rest) := Numeral.read cs
  let value := numeral.value negative
  let n := negative.toNat + numeral.chars.length
  let unit := Extent.letters rest
  if rest.head? = some '%' then
    { kind := .percentage, length := n + 1, payload := .number value, release := .complete }
  else if unit = 0 then
    { kind := .number, length := n, payload := .number value, release := .complete }
  else
    { kind := .dimension
      length := n + unit
      payload := .dimension value ⟨n, n + unit⟩
      release := .complete }

end Lexeme

end StyleLex
