import StyleLex.Proofs.MaximalMunch
import StyleLex.Proofs.NumberTokens

/-!
# Proofs/PrintedNumbers — a number that is printed is read again

A number is printed with all of its digits: those of the mantissa, with a point before as many of
them as there are decimal places (`Numeral.Prints`).  That a library of decimal numbers prints its
numbers so is assumed, and with it that its limits are what they are called, and that a number is
told by its sign, mantissa and scale (`DecimalLibrary.Lawful`).

Reading appends one place after the other and drops the first one that does not fit, and those
behind it.  No place of a printed number is dropped, since all of them together are the mantissa and
a part of them is no more (`Numeral.Prints.exists_value_eq`).  What is printed is a token of its own
(`tokenize_numeral`), so a number that is printed and lexed again is the same number
(`printed_numbers_are_read_again`).
-/

namespace StyleLex

open Chars Grammar

/-! ## Printed numbers -/

namespace Numeral

/-- **The numeral of a printed number**: digits with the mantissa as their value, and a point before
the decimal places if there are any. -/
structure Prints (n : Numeral) (mantissa : Int) (scale : Nat) : Prop where
  valid : n.Valid
  point_iff : n.places.isSome ↔ 0 < scale
  length_places : (n.places.getD []).length = scale
  mantissa_eq : Nat.ofDigitChars 10 (n.whole ++ n.places.getD []) 0 = mantissa.natAbs

end Numeral

namespace Decimal

theorem isDigit_of_mem_digits {d : Decimal} : ∀ c ∈ d.digits, isDigit c = true := by
  intro c hc
  rcases List.mem_append.mp hc with hzero | hdigit
  · obtain rfl := List.eq_of_mem_replicate hzero
    rfl
  · exact Nat.isDigit_of_mem_toDigits (by decide) (Nat.le_refl 10) hdigit

/-- Zeros in front do not change the value. -/
theorem ofDigitChars_digits (d : Decimal) :
    Nat.ofDigitChars 10 d.digits 0 = d.mantissa.natAbs := by
  rw [digits, List.leftpad, Nat.ofDigitChars_append, Nat.ofDigitChars_replicate_zero,
    Nat.mul_zero, Nat.ofDigitChars_ten_toDigits]

theorem scale_lt_length_digits (d : Decimal) : d.scale < d.digits.length := by
  rw [digits, List.length_leftpad]
  exact Nat.le_max_left ..

theorem wholeDigits_append_placeDigits (d : Decimal) : d.wholeDigits ++ d.placeDigits = d.digits :=
  List.take_append_drop ..

/-- The numeral of a number. -/
def toNumeral (d : Decimal) : Numeral where
  whole := d.wholeDigits
  places := if d.scale = 0 then none else some d.placeDigits

theorem length_placeDigits (d : Decimal) : d.placeDigits.length = d.scale := by
  have hlt := d.scale_lt_length_digits
  rw [placeDigits, List.length_drop]
  omega

theorem getD_places_toNumeral (d : Decimal) : d.toNumeral.places.getD [] = d.placeDigits := by
  rw [toNumeral]
  split
  · next hscale => exact (List.eq_nil_of_length_eq_zero (d.length_placeDigits.trans hscale)).symm
  · rfl

/-- A number is printed as a sign and a numeral. -/
theorem toChars_eq (d : Decimal) :
    d.toChars = sign (d.mantissa < 0) ++ d.toNumeral.chars := by
  have hchars : d.toNumeral.chars =
      d.wholeDigits ++ if d.scale = 0 then [] else '.' :: d.placeDigits := by
    by_cases hscale : d.scale = 0
    · rw [toNumeral, if_pos hscale, if_pos hscale, List.append_nil]
      rfl
    · rw [toNumeral, if_neg hscale, if_neg hscale]
      rfl
  rw [toChars, hchars, List.append_assoc, sign]
  simp only [decide_eq_true_eq]

/-- **A number is printed with all of its digits.** -/
theorem prints_toNumeral (d : Decimal) : d.toNumeral.Prints d.mantissa d.scale where
  valid := by
    have hlt := d.scale_lt_length_digits
    refine ⟨?_, fun c hc => d.isDigit_of_mem_digits c (List.mem_of_mem_take hc), ?_⟩
    · rw [toNumeral, wholeDigits, ← List.length_pos_iff, List.length_take]
      omega
    · rintro ds hds c hc
      have hds : d.placeDigits = ds := by
        rw [← getD_places_toNumeral, Option.mem_def.mp hds]
        rfl
      exact d.isDigit_of_mem_digits c (List.mem_of_mem_drop (hds ▸ hc))
  point_iff := by
    rw [toNumeral]
    split
    · next hscale => simp [hscale]
    · next hscale => simp [Nat.pos_of_ne_zero hscale]
  length_places := by rw [getD_places_toNumeral, length_placeDigits]
  mantissa_eq := by
    rw [getD_places_toNumeral]
    exact (congrArg _ d.wholeDigits_append_placeDigits).trans d.ofDigitChars_digits

end Decimal

/-! ## What is assumed of a library -/

namespace DecimalLibrary

/-- **A library that is as it is documented.**  It has a number for all parts that fit, and its
limits are the numbers of largest magnitude.  A number whose sign is that of its mantissa, so that
zero has none, is printed with all of its digits. -/
structure Lawful {δ : Type} (lib : DecimalLibrary δ) : Prop extends lib.MakesParts where
  max_parts : lib.mantissa lib.max = 2 ^ 96 - 1 ∧ lib.scale lib.max = 0 ∧
    lib.isNegative lib.max = false
  min_parts : lib.mantissa lib.min = -(2 ^ 96 - 1) ∧ lib.scale lib.min = 0 ∧
    lib.isNegative lib.min = true
  print_eq {d : δ} (hsign : lib.isNegative d = true ↔ lib.mantissa d < 0) :
    ∃ n : Numeral, n.Prints (lib.mantissa d) (lib.scale d) ∧
      lib.print d = String.ofList (sign (lib.mantissa d < 0) ++ n.chars)
  /-- Nothing but these three parts is in a number. -/
  eq_of_parts {d e : δ} (hsign : lib.isNegative d = lib.isNegative e)
    (hmantissa : lib.mantissa d = lib.mantissa e) (hscale : lib.scale d = lib.scale e) : d = e

/-- **A number that can be printed and read again**: its parts fit, and zero has no sign. -/
structure Fits {δ : Type} (lib : DecimalLibrary δ) (d : δ) : Prop where
  mantissa_le : (lib.mantissa d).natAbs ≤ 2 ^ 96 - 1
  scale_le : lib.scale d ≤ 28
  isNegative_iff : lib.isNegative d = true ↔ lib.mantissa d < 0

/-- **The number of every reading fits**, cut off or not. -/
theorem Lawful.fits_number {δ : Type} {lib : DecimalLibrary δ} (hlib : lib.Lawful) (r : Reading) :
    lib.Fits (lib.number r) := by
  cases r with
  | tooLarge negative =>
    cases negative with
    | false =>
      obtain ⟨hmantissa, hscale, hsign⟩ := hlib.max_parts
      refine ⟨?_, ?_, ?_⟩ <;> simp [number, limit, hmantissa, hscale, hsign]
    | true =>
      obtain ⟨hmantissa, hscale, hsign⟩ := hlib.min_parts
      refine ⟨?_, ?_, ?_⟩ <;> simp [number, limit, hmantissa, hscale, hsign]
  | parts negative m k hm hk =>
    obtain ⟨d, -, hd, hmantissa, hscale, hsign⟩ := hlib.number_parts negative hm hk
    rw [hd]
    exact ⟨by rw [hmantissa, Reading.natAbs_signed]; exact hm, hscale ▸ hk, hmantissa ▸ hsign⟩

end DecimalLibrary

/-- The library of numbers made of a mantissa and a scale is as it is documented. -/
theorem Decimal.lawful_library : Decimal.library.Lawful where
  toMakesParts := makesParts_library
  max_parts := ⟨rfl, rfl, rfl⟩
  min_parts := ⟨rfl, rfl, rfl⟩
  print_eq {d} _ := ⟨d.toNumeral, d.prints_toNumeral, congrArg String.ofList d.toChars_eq⟩
  eq_of_parts {d e} _ hmantissa hscale := by
    obtain ⟨m, k, hm, hk⟩ := d
    obtain rfl : m = e.mantissa := hmantissa
    obtain rfl : k = e.scale := hscale
    rfl

namespace Numeral.Prints

open Reading

variable {n : Numeral} {m : Int} {k : Nat}

/-- **No place of a printed number is dropped.** -/
theorem exists_value_eq (h : n.Prints m k) (hm : m.natAbs ≤ 2 ^ 96 - 1) (hk : k ≤ 28) :
    ∃ m' hm' hk', n.value (m < 0) = .parts (m < 0) m' k hm' hk' ∧ signed (m < 0) m' = m := by
  have hall : Nat.ofDigitChars 10 (n.places.getD []) (Nat.ofDigitChars 10 n.whole 0) =
      m.natAbs := by
    rw [← Nat.ofDigitChars_append, h.mantissa_eq]
  have hwhole : Nat.ofDigitChars 10 n.whole 0 ≤ 2 ^ 96 - 1 :=
    Nat.le_trans (le_ofDigitChars _ _) (hall ▸ hm)
  obtain ⟨m', k', hm', hk', heq, htruncates⟩ :=
    exists_ofDigits_eq (m < 0) hwhole (n.places.getD [])
  have hmantissa : mantissaWith n.whole (n.places.getD []) k = m.natAbs := by
    rw [mantissaWith_eq n.whole (Nat.le_of_eq h.length_places.symm),
      List.take_of_length_le (Nat.le_of_eq h.length_places), hall]
  -- all the places together fit, and there are no more than these
  obtain rfl : k' = k := by
    refine htruncates.scale_isGreatest.unique ⟨⟨?_, hmantissa ▸ hm⟩, fun j hj => ?_⟩
    · exact Nat.le_min.mpr ⟨hk, Nat.le_of_eq h.length_places.symm⟩
    · exact h.length_places ▸ Nat.le_trans hj.1 (Nat.min_le_right ..)
  have hnatAbs := htruncates.natAbs_mantissa
  have hneg := htruncates.mantissa_neg_iff
  rw [hmantissa] at hnatAbs
  rw [decide_eq_true_eq] at hneg
  exact ⟨m', hm', hk', heq, by omega⟩

/-- **The number of a printed number** has its parts. -/
theorem exists_number_eq (h : n.Prints m k) (hm : m.natAbs ≤ 2 ^ 96 - 1) (hk : k ≤ 28) {δ : Type}
    {lib : DecimalLibrary δ} (hlib : lib.MakesParts) :
    ∃ d, lib.number (n.value (m < 0)) = d ∧ lib.mantissa d = m ∧ lib.scale d = k ∧
      (lib.isNegative d = true ↔ m < 0) := by
  obtain ⟨m', hm', hk', heq, hsigned⟩ := h.exists_value_eq hm hk
  obtain ⟨d, -, hd, hparts⟩ := hlib.number_parts (m < 0) hm' hk'
  rw [hsigned] at hparts
  exact ⟨d, heq ▸ hd, hparts⟩

end Numeral.Prints

/-! ## Lexing a numeral -/

namespace Lexeme

theorem numeric_chars (negative : Bool) {n : Numeral} (h : n.Valid) :
    numeric negative n.chars =
      { kind := .number
        length := (sign negative ++ n.chars).length
        payload := .number (n.value negative)
        release := .complete } := by
  have hread : Numeral.read n.chars = (n, []) := by
    have := @Numeral.Valid.read_append n h [] (fun c hc => by cases hc)
    rwa [List.append_nil] at this
  rw [numeric, hread, List.length_append, length_sign]
  rfl

theorem leading_of_isDigit (o : Options) {c : Char} (hc : isDigit c = true) (cs : List Char) :
    leading o c cs = numeric false (c :: cs) := by
  have hw : isWhitespace c = false := not_isWhitespace_of_isDigit hc
  rw [leading, attempt?, hw, hc]
  rfl

theorem leading_of_negative (o : Options) {c : Char} (hc : isDigit c = true) (cs : List Char) :
    leading o '-' (c :: cs) = numeric true (c :: cs) := by
  have harrow : (c :: cs).take 2 ≠ ['-', '>'] := fun h => by
    obtain ⟨rfl, -⟩ := List.cons.inj h
    exact absurd hc (by decide)
  change (minus? (c :: cs)).getD _ = _
  rw [minus?, if_neg harrow, if_pos (by exact hc)]
  rfl

end Lexeme

namespace Tokenizer

/-- **A numeral with its sign is one number token.** -/
theorem tokenize_numeral (negative : Bool) {n : Numeral} (h : n.Valid) :
    ∃ token, tokenize (String.ofList (sign negative ++ n.chars)) = [token] ∧
      token.kind = .number ∧ token.reading? = some (n.value negative) := by
  obtain ⟨d, ds, hds, hd⟩ := h.exists_digit
  obtain ⟨c, cs, hcs, hlx⟩ : ∃ c cs, sign negative ++ n.chars = c :: cs ∧
      Lexeme.leading {} c cs = Lexeme.numeric negative n.chars := by
    rw [hds]
    cases negative with
    | false => exact ⟨d, ds, rfl, Lexeme.leading_of_isDigit _ hd ds⟩
    | true => exact ⟨'-', d :: ds, rfl, Lexeme.leading_of_negative _ hd ds⟩
  rw [Lexeme.numeric_chars negative h] at hlx
  have hlen : (Lexeme.leading {} c cs).length = cs.length + 1 := by
    rw [hlx, hcs]
    rfl
  refine ⟨_, hcs ▸ tokenize_of_leading hlen, ?_, ?_⟩
  · rw [hlx]
    rfl
  · rw [hlx]
    rfl

section Library

variable {δ : Type} {lib : DecimalLibrary δ}

/-- A numeral of parts that fit is one number token, with these parts. -/
theorem tokenize_prints (hlib : lib.MakesParts) {n : Numeral} {m : Int} {k : Nat}
    (h : n.Prints m k) (hm : m.natAbs ≤ 2 ^ 96 - 1) (hk : k ≤ 28) :
    ∃ token d, tokenize (String.ofList (sign (m < 0) ++ n.chars)) = [token] ∧
      token.kind = .number ∧ token.number? lib = some d ∧
      lib.mantissa d = m ∧ lib.scale d = k ∧ (lib.isNegative d = true ↔ m < 0) := by
  obtain ⟨token, htoken, hkind, hreading⟩ := tokenize_numeral (m < 0) h.valid
  obtain ⟨d, hd, hparts⟩ := h.exists_number_eq hm hk hlib
  exact ⟨token, d, htoken, hkind, by rw [Token.number?, hreading, Option.map_some, hd], hparts⟩

/-- A number that is printed and lexed again is the same number. -/
theorem tokenize_print (hlib : lib.Lawful) {d : δ} (hd : lib.Fits d) :
    ∃ token, tokenize (lib.print d) = [token] ∧ token.kind = .number ∧
      token.number? lib = some d := by
  obtain ⟨n, hn, hprint⟩ := hlib.print_eq hd.isNegative_iff
  obtain ⟨token, e, htoken, hkind, hnumber, hmantissa, hscale, hsign⟩ :=
    tokenize_prints hlib.toMakesParts hn hd.mantissa_le hd.scale_le
  have hsame : lib.isNegative e = lib.isNegative d :=
    Bool.eq_iff_iff.mpr (hsign.trans hd.isNegative_iff.symm)
  obtain rfl := hlib.eq_of_parts hsame hmantissa hscale
  exact ⟨token, hprint ▸ htoken, hkind, hnumber⟩

/-- **Numbers that are printed are read again.**  Take any mantissa of at most 96 bits with up to 28
decimal places, and write it with all of its digits.  That is one number token, and its number has
this mantissa and these places.  So a library that prints its numbers in this way has each of them
read again as it is, and the number of any token in any window, cut off or not, is the same when it
is printed and lexed again. -/
theorem printed_numbers_are_read_again (hlib : lib.Lawful) :
    (∀ (m : Int) (k : Nat), m.natAbs ≤ 2 ^ 96 - 1 → k ≤ 28 → ∀ n : Numeral, n.Prints m k →
      ∃ token d, tokenize (String.ofList (sign (m < 0) ++ n.chars)) = [token] ∧
        token.kind = .number ∧ token.number? lib = some d ∧
        lib.mantissa d = m ∧ lib.scale d = k ∧ (lib.isNegative d = true ↔ m < 0)) ∧
    (∀ d : δ, lib.Fits d →
      ∃ token, tokenize (lib.print d) = [token] ∧ token.kind = .number ∧
        token.number? lib = some d) ∧
    ∀ (text : List Char) (config : Config) (t : Tokenizer Cursor), ofConfig? text config = .ok t →
      ∀ token ∈ t.tokens,
        token.kind = .number ∨ token.kind = .percentage ∨ token.kind = .dimension →
        ∃ d again, token.number? lib = some d ∧ tokenize (lib.print d) = [again] ∧
          again.kind = .number ∧ again.number? lib = some d := by
  refine ⟨fun m k hm hk n hn => tokenize_prints hlib.toMakesParts hn hm hk,
    fun d hd => tokenize_print hlib hd, fun text config t h token hmem hk => ?_⟩
  have hshape := (run_rest t).shape (closesAhead_of_ofConfig? h) token hmem
  obtain ⟨negative, n, trail, -, hreading⟩ := Token.exists_written hshape hk
  obtain ⟨again, hagain⟩ := tokenize_print hlib (hlib.fits_number (n.value negative))
  exact ⟨_, again, congrArg (Option.map lib.number) hreading, hagain⟩

end Library

/-- The smallest number with 28 places, a dimension that is cut off behind its 28th, and a
percentage of more than 96 bits. -/
theorem printed_numbers_are_read_again_at_limits :
    (∃ token d, tokenize "-7.9228162514264337593543950335" = [token] ∧
      token.number? Decimal.library = some d ∧
      d.mantissa = -79228162514264337593543950335 ∧ d.scale = 28) ∧
    ∃ t, ofConfig? "-0.00000000000000000000000000019px 99999999999999999999999999999%".toList {} =
        .ok t ∧
      (t.tokens.map fun token => (token.number? Decimal.library).map Decimal.library.print) =
        [some "-0.0000000000000000000000000001", none, some "79228162514264337593543950335"] ∧
      ∀ token ∈ t.tokens,
        token.kind = .number ∨ token.kind = .percentage ∨ token.kind = .dimension →
        ∃ d again, token.number? Decimal.library = some d ∧
          tokenize (Decimal.library.print d) = [again] ∧
          again.number? Decimal.library = some d := by
  obtain ⟨hread, -, hagain⟩ := printed_numbers_are_read_again Decimal.lawful_library
  have hprints : Numeral.Prints ⟨['7'], some "9228162514264337593543950335".toList⟩
      (-79228162514264337593543950335) 28 := by
    refine ⟨⟨List.cons_ne_nil _ _, List.all_eq_true.mp rfl, ?_⟩, by decide, rfl, rfl⟩
    rintro ds hds
    obtain rfl := Option.some.inj hds
    exact List.all_eq_true.mp rfl
  constructor
  · obtain ⟨token, d, htoken, -, hnumber, hmantissa, hscale, -⟩ :=
      hread _ _ (by decide) (Nat.le_refl 28) _ hprints
    exact ⟨token, d, htoken, hnumber, hmantissa, hscale⟩
  · refine ⟨_, rfl, rfl, fun token hmem hk => ?_⟩
    obtain ⟨d, again, hd, htokens, -, hnumber⟩ :=
      hagain "-0.00000000000000000000000000019px 99999999999999999999999999999%".toList {} _ rfl
        token hmem hk
    exact ⟨d, again, hd, htokens, hnumber⟩

end Tokenizer

end StyleLex
