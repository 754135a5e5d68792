import StyleLex.Proofs.DecimalValue

/-!
# Proofs/DecimalWords — the digits of a number in words of 128 bits

Here the digits are read one at a time into a mantissa of 128 bits (`Accumulator.read?`), with a
flag for an integer part that is too large and one for a decimal place that does not fit.  A step
whose product or sum needs more bits fails.  What was read goes to a library of decimal numbers
(`Accumulator.number?`), and if the library has no number for it, the largest one stands in.

None of this ever happens.  What is read is what `ofDigits` gives (`Accumulator.Holds`), because a
mantissa that fits in 96 bits leaves room for one digit more (`Accumulator.append?_eq_some`), and a
library that has a number for all parts that fit has one for these
(`MakesParts.exists_number?_eq_some`).
-/

namespace StyleLex

open Chars Reading

/-! ## Words -/

namespace Reading

/-- The number, if it fits in a signed word of 128 bits. -/
def word? (n : Int) : Option Int := if -2 ^ 127 ≤ n ∧ n < 2 ^ 127 then some n else none

theorem word?_of_lt {n : Int} (hlow : -2 ^ 127 ≤ n) (hhigh : n < 2 ^ 127) : word? n = some n :=
  if_pos ⟨hlow, hhigh⟩

end Reading

/-! ## The accumulator -/

/-- **The digits that were read so far.** -/
structure Accumulator where
  mantissa : Int := 0
  scale : Nat := 0
  /-- Whether the integer part was too large. -/
  overflow : Bool := false
  /-- Whether a decimal place did not fit. -/
  truncated : Bool := false
  deriving DecidableEq, Repr

namespace Accumulator

/-- The mantissa with one digit more. -/
def append? (a : Accumulator) (c : Char) : Option Int :=
  (word? (a.mantissa * 10)).bind fun product => word? (product + (digitValue c : Int))

/-- Read a digit of the integer part. -/
def pushWhole? (a : Accumulator) (c : Char) : Option Accumulator :=
  if a.overflow then some a
  else (a.append? c).map fun m : Int =>
    if m ≤ maxMantissa then { a with mantissa := m } else { a with overflow := true }

/-- Read a decimal place. -/
def pushPlace? (a : Accumulator) (c : Char) : Option Accumulator :=
  if a.overflow ∨ a.truncated ∨ maxScale ≤ a.scale then some a
  else (a.append? c).map fun m : Int =>
    if m ≤ maxMantissa then { a with mantissa := m, scale := a.scale + 1 }
    else { a with truncated := true }

/-- Read the digits before and after the point. -/
def read? (whole places : List Char) : Option Accumulator := do
  let a ← whole.foldlM pushWhole? {}
  places.foldlM pushPlace? a

/-- The mantissa with its sign. -/
def signed? (a : Accumulator) (negative : Bool) : Option Int :=
  if negative then word? (-a.mantissa) else some a.mantissa

/-- The number that was read, as a number of a library. -/
def number? {δ : Type} (lib : DecimalLibrary δ) (a : Accumulator) (negative : Bool) : Option δ :=
  if a.overflow then some (if negative then lib.min else lib.max)
  else (a.signed? negative).map fun m => (lib.ofParts? m a.scale).getD lib.max

/-! ## Nothing fails -/

/-- **There is room for one digit more** behind every mantissa that fits. -/
theorem append?_eq_some {m k : Nat} (hm : m ≤ maxMantissa) {c : Char} (hc : isDigit c = true) :
    append? ⟨m, k, false, false⟩ c = some ((10 * m + digitValue c : Nat) : Int) := by
  have hdigit := digitValue_le hc
  unfold maxMantissa at hm
  have hproduct : word? ((m : Int) * 10) = some ((m : Int) * 10) :=
    word?_of_lt (by omega) (by omega)
  have hsum : word? ((m : Int) * 10 + (digitValue c : Int)) =
      some ((10 * m + digitValue c : Nat) : Int) := by
    rw [word?_of_lt (by omega) (by omega)]
    push_cast
    rw [Int.mul_comm]
  rw [append?, hproduct, Option.bind_some, hsum]

/-- The accumulator has read an integer part of the value `m`. -/
def HasRead (m : Nat) (a : Accumulator) : Prop :=
  if m ≤ maxMantissa then a = ⟨m, 0, false, false⟩ else a.overflow = true

theorem pushWhole?_spec {m : Nat} {a : Accumulator} (ha : HasRead m a) {c : Char}
    (hc : isDigit c = true) :
    ∃ b, a.pushWhole? c = some b ∧ HasRead (10 * m + digitValue c) b := by
  unfold HasRead at ha
  split at ha
  · next hm =>
    subst ha
    rw [pushWhole?, if_neg Bool.false_ne_true, append?_eq_some hm hc]
    refine ⟨_, rfl, ?_⟩
    unfold HasRead
    split
    · next hfits => exact if_pos (Int.ofNat_le.mpr hfits)
    · next hfits => exact congrArg overflow (if_neg fun h => hfits (Int.ofNat_le.mp h))
  · next hm =>
    refine ⟨a, if_pos ha, ?_⟩
    rw [HasRead, if_neg (by omega)]
    exact ha

theorem foldlM_pushWhole? {cs : List Char} (hcs : ∀ c ∈ cs, isDigit c = true) {m : Nat}
    {a : Accumulator} (ha : HasRead m a) :
    ∃ b, cs.foldlM pushWhole? a = some b ∧ HasRead (Nat.ofDigitChars 10 cs m) b := by
  induction cs generalizing m a with
  | nil => exact ⟨a, rfl, ha⟩
  | cons c cs ih =>
    obtain ⟨hc, hcs⟩ := List.forall_mem_cons.mp hcs
    obtain ⟨b, hb, hread⟩ := pushWhole?_spec ha hc
    rw [List.foldlM_cons, hb]
    exact ih hcs hread

/-- Once a digit was dropped, all are. -/
theorem foldlM_pushPlace?_of_full {a : Accumulator}
    (ha : a.overflow ∨ a.truncated ∨ maxScale ≤ a.scale) (cs : List Char) :
    cs.foldlM pushPlace? a = some a := by
  induction cs with
  | nil => rfl
  | cons c cs ih =>
    rw [List.foldlM_cons, pushPlace?, if_pos ha]
    exact ih

/-- **The places that are read are those that can be appended.** -/
theorem foldlM_pushPlace? {cs : List Char} (hcs : ∀ c ∈ cs, isDigit c = true) {m k : Nat}
    (hm : m ≤ maxMantissa) :
    ∃ truncated, cs.foldlM pushPlace? ⟨m, k, false, false⟩ =
      some ⟨(appendPlaces m k cs).1, (appendPlaces m k cs).2, false, truncated⟩ := by
  induction cs generalizing m k with
  | nil => exact ⟨false, rfl⟩
  | cons c cs ih =>
    obtain ⟨hc, hcs⟩ := List.forall_mem_cons.mp hcs
    rw [appendPlaces]
    by_cases hk : k < maxScale
    · have hopen : ¬(false = true ∨ false = true ∨ maxScale ≤ k) := by simpa using hk
      rw [List.foldlM_cons, pushPlace?, if_neg hopen, append?_eq_some hm hc, Option.map_some]
      by_cases hfits : 10 * m + digitValue c ≤ maxMantissa
      · rw [if_pos (Int.ofNat_le.mpr hfits), if_pos ⟨hfits, hk⟩]
        exact ih hcs hfits
      · rw [if_neg fun h => hfits (Int.ofNat_le.mp h), if_neg fun h => hfits h.1]
        exact ⟨true, foldlM_pushPlace?_of_full (Or.inr (Or.inl rfl)) cs⟩
    · -- all 28 places are there, and the digit is skipped without a flag
      rw [if_neg fun h => hk h.2]
      exact ⟨false, foldlM_pushPlace?_of_full (Or.inr (Or.inr (Nat.not_lt.mp hk))) _⟩

/-- **The accumulator holds a reading**, apart from the sign. -/
def Holds (a : Accumulator) (negative : Bool) : Reading → Prop
  | .tooLarge sign => sign = negative ∧ a.overflow = true
  | .parts sign m k _ _ => sign = negative ∧ a.overflow = false ∧ a.mantissa = m ∧ a.scale = k

/-- **A word of 128 bits is always enough**, and what is read is what the digits say. -/
theorem exists_read?_eq_some (negative : Bool) {whole places : List Char}
    (hwhole : ∀ c ∈ whole, isDigit c = true) (hplaces : ∀ c ∈ places, isDigit c = true) :
    ∃ a, read? whole places = some a ∧ a.Holds negative (ofDigits negative whole places) := by
  obtain ⟨a, ha, hread⟩ := foldlM_pushWhole? hwhole (m := 0) (a := {}) rfl
  rw [read?, ha, Option.bind_eq_bind, Option.bind_some]
  unfold HasRead at hread
  split at hread
  · next hm =>
    subst hread
    obtain ⟨truncated, hfold⟩ := foldlM_pushPlace? hplaces (k := 0) hm
    obtain ⟨hle, hscale, hparts⟩ := @ofDigits_of_le negative whole places hm _ _ rfl
    rw [hparts]
    exact ⟨_, hfold, rfl, rfl, rfl, rfl⟩
  · next hm =>
    rw [ofDigits, dif_neg hm]
    exact ⟨a, foldlM_pushPlace?_of_full (Or.inl hread) places, rfl, hread⟩

/-- The sign of a mantissa that fits can be turned. -/
theorem signed?_eq_some {a : Accumulator} {m : Nat} (ha : a.mantissa = m) (hm : m ≤ maxMantissa)
    (negative : Bool) : a.signed? negative = some (signed negative m) := by
  unfold maxMantissa at hm
  rw [signed?, ha]
  cases negative with
  | false => rfl
  | true => exact word?_of_lt (by omega) (by omega)

end Accumulator

namespace DecimalLibrary

variable {δ : Type} {lib : DecimalLibrary δ}

/-- **The library is never short of a number** for what is read, and its number is the one of the
reading. -/
theorem MakesParts.exists_number?_eq_some (hlib : lib.MakesParts) (negative : Bool)
    {whole places : List Char} (hwhole : ∀ c ∈ whole, isDigit c = true)
    (hplaces : ∀ c ∈ places, isDigit c = true) :
    ∃ a, Accumulator.read? whole places = some a ∧
      a.number? lib negative = some (lib.number (ofDigits negative whole places)) ∧
      (a.overflow = false → ∃ m, a.signed? negative = some m ∧
        lib.ofParts? m a.scale = some (lib.number (ofDigits negative whole places))) := by
  obtain ⟨a, ha, hholds⟩ := Accumulator.exists_read?_eq_some negative hwhole hplaces
  refine ⟨a, ha, ?_⟩
  cases hr : ofDigits negative whole places with
  | tooLarge sign =>
    rw [hr] at hholds
    obtain ⟨rfl, hover⟩ := hholds
    exact ⟨if_pos hover, fun h => Bool.noConfusion (h.symm.trans hover)⟩
  | parts sign m k hm hk =>
    rw [hr] at hholds
    obtain ⟨rfl, hover, hmantissa, rfl⟩ := hholds
    obtain ⟨d, hd, hnumber, -⟩ := hlib.number_parts sign hm hk
    have hsigned := Accumulator.signed?_eq_some hmantissa hm sign
    refine ⟨?_, fun _ => ⟨_, hsigned, hnumber.symm ▸ hd⟩⟩
    rw [Accumulator.number?, hover, if_neg Bool.false_ne_true, hsigned, Option.map_some, hd,
      Option.getD_some, hnumber]

end DecimalLibrary

end StyleLex
