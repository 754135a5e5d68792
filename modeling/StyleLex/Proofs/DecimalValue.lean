import Mathlib.Algebra.Order.Field.Rat
import Mathlib.Order.Bounds.Defs
import Mathlib.Tactic.FieldSimp
import Mathlib.Tactic.Positivity
import Mathlib.Tactic.Ring
import StyleLex.Chars.Class
import StyleLex.Decimal

/-!
# Proofs/DecimalValue — a number is cut off where its digits no longer fit

A numeral may have any number of digits, and a decimal number holds so many of them.  What is read
is the exact value if it fits, and else the value cut off towards zero behind the last decimal place
that fits (`Truncates`, `exists_ofDigits_eq`).  The place at which digits stop fitting is found by
trying one after the other (`appendPlaces_eq`), which is right because another digit never makes a
mantissa smaller (`le_ofDigitChars`).

The difference to the exact value is less than one unit of the last place
(`Truncates.abs_toRat_le`, `Truncates.exact_lt`).

The number itself comes from a library, of which one thing is assumed: it has a number for each
mantissa and scale that fit (`DecimalLibrary.MakesParts`).  Then the number of a reading is what the
digits say (`MakesParts.readFrom_number`).
-/

namespace StyleLex

open Chars

namespace Reading

/-! ## The value of digits -/

theorem digitValue_le {c : Char} (h : isDigit c = true) : digitValue c ≤ 9 := by
  simp only [isDigit, Char.isDigit, Bool.and_eq_true, decide_eq_true_eq] at h
  have hle : c.toNat ≤ '9'.toNat := h.2
  exact Nat.sub_le_sub_right hle _

/-- **Another digit never makes a number smaller.** -/
theorem le_ofDigitChars (m : Nat) (cs : List Char) : m ≤ Nat.ofDigitChars 10 cs m := by
  rw [Nat.ofDigitChars_eq_ofDigitChars_zero]
  exact Nat.le_add_right_of_le (Nat.le_mul_of_pos_left m (Nat.pow_pos (by decide)))

theorem ofDigitChars_lt {cs : List Char} (h : ∀ c ∈ cs, isDigit c = true) :
    Nat.ofDigitChars 10 cs 0 < 10 ^ cs.length := by
  induction cs with
  | nil => exact Nat.one_pos
  | cons c cs ih =>
    obtain ⟨hc, hcs⟩ := List.forall_mem_cons.mp h
    have hdigit : 10 * 0 + (c.toNat - '0'.toNat) + 1 ≤ 10 := by
      rw [Nat.mul_zero, Nat.zero_add]
      exact Nat.succ_le_succ (digitValue_le hc)
    rw [Nat.ofDigitChars_cons, Nat.ofDigitChars_eq_ofDigitChars_zero, List.length_cons, pow_succ]
    calc _ < 10 ^ cs.length * (10 * 0 + (c.toNat - '0'.toNat)) + 10 ^ cs.length :=
          Nat.add_lt_add_left (ih hcs) _
      _ = 10 ^ cs.length * (10 * 0 + (c.toNat - '0'.toNat) + 1) := (Nat.mul_succ _ _).symm
      _ ≤ 10 ^ cs.length * 10 := Nat.mul_le_mul_left _ hdigit

/-! ## How many places fit -/

/-- The mantissa of a numeral with `k` decimal places. -/
def mantissaWith (whole places : List Char) (k : Nat) : Nat :=
  Nat.ofDigitChars 10 whole 0 * 10 ^ k + Nat.ofDigitChars 10 (places.take k) 0

theorem mantissaWith_eq (whole : List Char) {places : List Char} {k : Nat}
    (h : k ≤ places.length) :
    mantissaWith whole places k =
      Nat.ofDigitChars 10 (places.take k) (Nat.ofDigitChars 10 whole 0) := by
  have hlen : (places.take k).length = k := by rw [List.length_take, Nat.min_eq_left h]
  have hsplit := @Nat.ofDigitChars_eq_ofDigitChars_zero (places.take k)
    (Nat.ofDigitChars 10 whole 0)
  rw [mantissaWith, hsplit, hlen, Nat.mul_comm]

/-- The numbers of digits that can be appended to `m / 10 ^ k`. -/
def Appendable (m k : Nat) (cs : List Char) : Set Nat :=
  {j | k + j ≤ maxScale ∧ j ≤ cs.length ∧ Nat.ofDigitChars 10 (cs.take j) m ≤ maxMantissa}

theorem zero_mem_appendable {m k : Nat} (hm : m ≤ maxMantissa) (hk : k ≤ maxScale)
    (cs : List Char) : 0 ∈ Appendable m k cs := ⟨hk, Nat.zero_le _, hm⟩

theorem succ_mem_appendable_iff {m k j : Nat} {c : Char} {cs : List Char} :
    j + 1 ∈ Appendable m k (c :: cs) ↔ j ∈ Appendable (10 * m + digitValue c) (k + 1) cs := by
  simp only [Appendable, Set.mem_ofPred_eq, List.take_succ_cons, List.length_cons,
    Nat.ofDigitChars_cons, digitValue, Nat.add_le_add_iff_right, Nat.add_assoc, Nat.add_comm 1 j]

/-- A digit that fits can be appended, and with it whatever can be appended behind it. -/
theorem appendable_of_fits {m k j : Nat} {c : Char} {cs : List Char}
    (h : IsGreatest (Appendable (10 * m + digitValue c) (k + 1) cs) j) :
    IsGreatest (Appendable m k (c :: cs)) (j + 1) := by
  refine ⟨succ_mem_appendable_iff.mpr h.1, ?_⟩
  rintro (_ | i) hi
  · exact Nat.zero_le _
  · exact Nat.succ_le_succ (h.2 (succ_mem_appendable_iff.mp hi))

/-- A digit that does not fit cannot be appended, and nothing behind it can either. -/
theorem appendable_of_not_fits {m k : Nat} (hm : m ≤ maxMantissa) (hk : k ≤ maxScale) {c : Char}
    {cs : List Char} (h : ¬(10 * m + digitValue c ≤ maxMantissa ∧ k < maxScale)) :
    IsGreatest (Appendable m k (c :: cs)) 0 := by
  refine ⟨zero_mem_appendable hm hk _, ?_⟩
  rintro (_ | i) hi
  · exact Nat.le_refl _
  · obtain ⟨hscale, -, hmantissa⟩ := succ_mem_appendable_iff.mp hi
    have hfits := Nat.le_trans (le_ofDigitChars _ _) hmantissa
    exact absurd ⟨hfits, Nat.lt_of_lt_of_le (Nat.lt_succ_self k) (Nat.le_of_add_right_le hscale)⟩ h

/-- **Digits are appended as long as that is possible.** -/
theorem appendPlaces_eq {m k : Nat} (hm : m ≤ maxMantissa) (hk : k ≤ maxScale) (cs : List Char) :
    ∃ j, IsGreatest (Appendable m k cs) j ∧
      appendPlaces m k cs = (Nat.ofDigitChars 10 (cs.take j) m, k + j) := by
  induction cs generalizing m k with
  | nil => exact ⟨0, ⟨zero_mem_appendable hm hk _, fun j hj => hj.2.1⟩, rfl⟩
  | cons c cs ih =>
    rw [appendPlaces]
    split
    · next hfits =>
      obtain ⟨j, hj, heq⟩ := ih hfits.1 hfits.2
      refine ⟨j + 1, appendable_of_fits hj, ?_⟩
      rw [heq, List.take_succ_cons, Nat.ofDigitChars_cons, ← Nat.succ_add_eq_add_succ]
      rfl
    · next hfits => exact ⟨0, appendable_of_not_fits hm hk hfits, rfl⟩

/-! ## What is read -/

/-- **The value of digits, cut off** behind the last decimal place with which the mantissa has no
more than 96 bits, or behind the 28th.  Zero has no sign. -/
structure Truncates (negative : Bool) (whole places : List Char) (mantissa : Int) (scale : Nat) :
    Prop where
  scale_isGreatest :
    IsGreatest {k | k ≤ min 28 places.length ∧ mantissaWith whole places k ≤ 2 ^ 96 - 1} scale
  natAbs_mantissa : mantissa.natAbs = mantissaWith whole places scale
  mantissa_neg_iff : mantissa < 0 ↔ negative = true ∧ mantissa ≠ 0

theorem natAbs_signed (negative : Bool) (m : Nat) : (signed negative m).natAbs = m := by
  cases negative with
  | false => exact Int.natAbs_natCast m
  | true => exact (Int.natAbs_neg _).trans (Int.natAbs_natCast m)

theorem signed_neg_iff (negative : Bool) (m : Nat) :
    signed negative m < 0 ↔ negative = true ∧ signed negative m ≠ 0 := by
  cases negative with
  | false => simp [signed]
  | true => simp [signed, Nat.pos_iff_ne_zero]

/-- An integer part of more than 96 bits is too large. -/
theorem ofDigits_of_lt {negative : Bool} {whole : List Char}
    (h : 2 ^ 96 - 1 < Nat.ofDigitChars 10 whole 0) (places : List Char) :
    ofDigits negative whole places = tooLarge negative := dif_neg (Nat.not_le.mpr h)

theorem ofDigits_of_le (negative : Bool) {whole places : List Char}
    (h : Nat.ofDigitChars 10 whole 0 ≤ maxMantissa) {m k : Nat}
    (heq : appendPlaces (Nat.ofDigitChars 10 whole 0) 0 places = (m, k)) :
    ∃ hm hk, ofDigits negative whole places = parts negative m k hm hk := by
  have hle := appendPlaces_le places h (Nat.zero_le maxScale)
  rw [heq] at hle
  refine ⟨hle.1, hle.2, ?_⟩
  simp only [ofDigits, dif_pos h, heq]

/-- **Any other integer part gives the value of the digits, cut off.** -/
theorem exists_ofDigits_eq (negative : Bool) {whole : List Char}
    (h : Nat.ofDigitChars 10 whole 0 ≤ 2 ^ 96 - 1) (places : List Char) :
    ∃ m k hm hk, ofDigits negative whole places = parts negative m k hm hk ∧
      Truncates negative whole places (signed negative m) k := by
  obtain ⟨j, hj, heq⟩ := appendPlaces_eq h (Nat.zero_le maxScale) places
  rw [Nat.zero_add, ← mantissaWith_eq whole hj.1.2.1] at heq
  obtain ⟨hm, hk, hd⟩ := ofDigits_of_le negative h heq
  refine ⟨_, _, hm, hk, hd, ?_, natAbs_signed _ _, signed_neg_iff _ _⟩
  have hset : {k | k ≤ min 28 places.length ∧ mantissaWith whole places k ≤ 2 ^ 96 - 1} =
      Appendable (Nat.ofDigitChars 10 whole 0) 0 places := by
    ext k
    rw [Appendable, Set.mem_ofPred_eq, Set.mem_ofPred_eq, Nat.zero_add, Nat.le_min, and_assoc]
    refine and_congr_right fun _ => and_congr_right fun hk => ?_
    rw [mantissaWith_eq whole hk]
    rfl
  rw [hset]
  exact hj

/-! ## The distance to the exact value -/

/-- The number `mantissa / 10 ^ scale`, as a fraction. -/
def toRat (mantissa : Int) (scale : Nat) : ℚ := mantissa / 10 ^ scale

/-- The value of a numeral, with all of its digits. -/
def exact (whole places : List Char) : ℚ :=
  Nat.ofDigitChars 10 whole 0 + Nat.ofDigitChars 10 places 0 / 10 ^ places.length

theorem abs_toRat (m : Int) (k : Nat) : |toRat m k| = m.natAbs / 10 ^ k := by
  rw [toRat, abs_div, abs_of_pos (show (0 : ℚ) < 10 ^ k by positivity), Nat.cast_natAbs,
    Int.cast_abs]

/-- **The exact value** is that of the first `k` places and that of the digits behind them. -/
theorem exact_eq {whole places : List Char} {k : Nat} (h : k ≤ places.length) :
    exact whole places = mantissaWith whole places k / 10 ^ k +
      Nat.ofDigitChars 10 (places.drop k) 0 / 10 ^ places.length := by
  have hsplit : Nat.ofDigitChars 10 places 0 =
      10 ^ (places.length - k) * Nat.ofDigitChars 10 (places.take k) 0 +
        Nat.ofDigitChars 10 (places.drop k) 0 := by
    rw [← List.length_drop, ← Nat.ofDigitChars_eq_ofDigitChars_zero, ← Nat.ofDigitChars_append,
      List.take_append_drop]
  have hpow := (pow_sub_mul_pow (10 : ℚ) h).symm
  rw [exact, hsplit, mantissaWith, hpow]
  push_cast
  field_simp
  ring

section Truncates

variable {negative : Bool} {whole places : List Char} {m : Int} {k : Nat}

theorem Truncates.scale_le (h : Truncates negative whole places m k) : k ≤ places.length :=
  Nat.le_trans h.scale_isGreatest.1.1 (Nat.min_le_right ..)

/-- **Nothing is rounded up.** -/
theorem Truncates.abs_toRat_le (h : Truncates negative whole places m k) :
    |toRat m k| ≤ exact whole places := by
  rw [exact_eq h.scale_le, abs_toRat, h.natAbs_mantissa]
  exact le_add_of_nonneg_right (by positivity)

/-- **Less than one unit of the last place is lost.** -/
theorem Truncates.exact_lt (h : Truncates negative whole places m k)
    (hdigits : ∀ c ∈ places, isDigit c = true) :
    exact whole places < |toRat m k| + 1 / 10 ^ k := by
  have hlt := @ofDigitChars_lt (places.drop k) fun c hc => hdigits c (List.mem_of_mem_drop hc)
  rw [List.length_drop] at hlt
  have hpow := (pow_sub_mul_pow (10 : ℚ) h.scale_le).symm
  have hrest : (Nat.ofDigitChars 10 (places.drop k) 0 : ℚ) < 10 ^ (places.length - k) := by
    exact_mod_cast hlt
  rw [exact_eq h.scale_le, abs_toRat, h.natAbs_mantissa, hpow, ← div_div]
  refine add_lt_add_right ?_ _
  gcongr
  exact (div_lt_one (by positivity)).mpr hrest

/-- **Nothing is lost if all the places are kept.** -/
theorem Truncates.abs_toRat_eq (h : Truncates negative whole places m k)
    (hscale : k = places.length) : |toRat m k| = exact whole places := by
  rw [exact_eq h.scale_le, abs_toRat, h.natAbs_mantissa, hscale, List.drop_length,
    Nat.ofDigitChars_nil, Nat.cast_zero, zero_div, add_zero]

end Truncates

end Reading

/-! ## The number of a reading -/

namespace DecimalLibrary

open Reading

variable {δ : Type} (lib : DecimalLibrary δ)

/-- **A library that has a number for all parts that fit**: for each mantissa of at most 96 bits
with up to 28 decimal places.  Zero has no sign. -/
structure MakesParts : Prop where
  exists_ofParts? {m : Int} {k : Nat} (hm : m.natAbs ≤ 2 ^ 96 - 1) (hk : k ≤ 28) :
    ∃ d, lib.ofParts? m k = some d ∧
      lib.mantissa d = m ∧ lib.scale d = k ∧ (lib.isNegative d = true ↔ m < 0)

/-- **What a number has to do with the digits it is read from.**  If their integer part has more
than 96 bits, it is the largest number, or the smallest one with a sign.  Otherwise it is their
value, cut off, and differs from it by less than one unit of the last place. -/
structure ReadFrom (negative : Bool) (whole places : List Char) (d : δ) : Prop where
  eq_limit : 2 ^ 96 - 1 < Nat.ofDigitChars 10 whole 0 → d = if negative then lib.min else lib.max
  truncates : Nat.ofDigitChars 10 whole 0 ≤ 2 ^ 96 - 1 →
    Truncates negative whole places (lib.mantissa d) (lib.scale d)
  isNegative_iff : Nat.ofDigitChars 10 whole 0 ≤ 2 ^ 96 - 1 →
    (lib.isNegative d = true ↔ negative = true ∧ lib.mantissa d ≠ 0)
  near_exact : Nat.ofDigitChars 10 whole 0 ≤ 2 ^ 96 - 1 →
    |toRat (lib.mantissa d) (lib.scale d)| ≤ exact whole places ∧
      exact whole places < |toRat (lib.mantissa d) (lib.scale d)| + 1 / 10 ^ lib.scale d ∧
      (lib.scale d = places.length → |toRat (lib.mantissa d) (lib.scale d)| = exact whole places)

variable {lib}

/-- **The parts of a reading are those of its number**, and the library is never short of one. -/
theorem MakesParts.number_parts (hlib : lib.MakesParts) (negative : Bool) {m k : Nat}
    (hm : m ≤ maxMantissa) (hk : k ≤ maxScale) :
    ∃ d, lib.ofParts? (signed negative m) k = some d ∧
      lib.number (.parts negative m k hm hk) = d ∧
      lib.mantissa d = signed negative m ∧ lib.scale d = k ∧
      (lib.isNegative d = true ↔ signed negative m < 0) := by
  obtain ⟨d, hd, hparts⟩ := hlib.exists_ofParts? ((natAbs_signed negative m).trans_le hm) hk
  refine ⟨d, hd, ?_, hparts⟩
  change (lib.ofParts? (signed negative m) k).getD lib.max = d
  rw [hd, Option.getD_some]

/-- **The number of what is read of a numeral** is what its digits say. -/
theorem MakesParts.readFrom_number (hlib : lib.MakesParts) (negative : Bool) (whole : List Char)
    {places : List Char} (hplaces : ∀ c ∈ places, isDigit c = true) :
    lib.ReadFrom negative whole places (lib.number (ofDigits negative whole places)) := by
  by_cases h : Nat.ofDigitChars 10 whole 0 ≤ 2 ^ 96 - 1
  · obtain ⟨m, k, hm, hk, heq, htruncates⟩ := exists_ofDigits_eq negative h places
    obtain ⟨d, -, hnumber, hmantissa, hscale, hsign⟩ := hlib.number_parts negative hm hk
    rw [← hmantissa, ← hscale] at htruncates
    rw [← hmantissa] at hsign
    rw [heq, hnumber]
    exact ⟨fun hlt => absurd h (Nat.not_le.mpr hlt), fun _ => htruncates,
      fun _ => hsign.trans htruncates.mantissa_neg_iff, fun _ =>
        ⟨htruncates.abs_toRat_le, htruncates.exact_lt hplaces, htruncates.abs_toRat_eq⟩⟩
  · rw [ofDigits_of_lt (Nat.not_le.mp h)]
    exact ⟨fun _ => rfl, fun hle => absurd hle h, fun hle => absurd hle h,
      fun hle => absurd hle h⟩

end DecimalLibrary

/-- The library of numbers made of a mantissa and a scale has all parts that fit. -/
theorem Decimal.makesParts_library : Decimal.library.MakesParts where
  exists_ofParts? hm hk := ⟨_, dif_pos ⟨hm, hk⟩, rfl, rfl, decide_eq_true_iff⟩

end StyleLex
