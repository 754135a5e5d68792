import StyleLex.Chars.Class

/-!
# Chars/Lemmas — which classes of characters meet

Hexadecimal digits are name characters, what ends a line is white space, and what can begin a name
begins neither a number nor a delimiter.  Quotes are no white space.  Letters and white space are
tables of Unicode, in which these facts look at the ranges of ASCII.  Only that the two tables have
nothing in common is a question about all of their ranges.
-/

namespace StyleLex

namespace Chars

/-- **Hexadecimal digits can continue a name.** -/
theorem isName_of_isHexDigit {c : Char} (h : isHexDigit c = true) : isName c = true := by
  have hletter : ∀ r ∈ Alphabetic.ranges, r.1 ≤ c.toNat → c.toNat ≤ r.2 → isName c = true := by
    intro r hr hlo hhi
    have hc : isLetter c = true :=
      (CodeRanges.contains_iff Alphabetic.rising_ranges).mpr ⟨r, hr, hlo, hhi⟩
    simp [isName, isNameStart, hc]
  simp only [isHexDigit, Bool.or_eq_true, Bool.and_eq_true, decide_eq_true_eq] at h
  rcases h with (hd | ⟨hlo, hhi⟩) | ⟨hlo, hhi⟩
  · simp [isName, isDigit, hd]
  · exact hletter (0x61, 0x7A) (by decide) hlo (Nat.le_trans hhi (by decide))
  · exact hletter (0x41, 0x5A) (by decide) hlo (Nat.le_trans hhi (by decide))

theorem not_isLineEnd_of_isHexDigit {c : Char} (h : isHexDigit c = true) : isLineEnd c = false := by
  refine Bool.eq_false_iff.mpr fun hline => ?_
  simp only [isLineEnd, Bool.or_eq_true, beq_iff_eq] at hline
  rcases hline with (rfl | rfl) | rfl
  all_goals exact absurd h (by decide)

/-- **What ends a line is white space.** -/
theorem isWhitespace_of_isLineEnd {c : Char} (h : isLineEnd c = true) : isWhitespace c = true := by
  simp only [isLineEnd, Bool.or_eq_true, beq_iff_eq] at h
  rcases h with (rfl | rfl) | rfl
  all_goals decide

/-- **Digits are no letters**: the first letter of the table comes after them. -/
theorem not_isLetter_of_isDigit {c : Char} (h : isDigit c = true) : isLetter c = false := by
  simp only [isDigit, Char.isDigit, Bool.and_eq_true, decide_eq_true_eq] at h
  have hle : c.toNat ≤ '9'.toNat := h.2
  change (decide (0x41 ≤ c.toNat) && _) = false
  rw [decide_eq_false (Nat.not_le.mpr (Nat.lt_of_le_of_lt hle (by decide))), Bool.false_and]

/-- A digit may stand in a name but does not begin one. -/
theorem not_isNameStart_of_isDigit {c : Char} (h : isDigit c = true) : isNameStart c = false := by
  have hle : c ≤ '9' := by
    simp only [isDigit, Char.isDigit, Bool.and_eq_true, decide_eq_true_eq] at h
    exact h.2
  have hlow : ¬ '\u00b1' < c := fun hlt => absurd (Nat.lt_of_lt_of_le hlt hle) (by decide)
  have hne : c ≠ '_' := by
    rintro rfl
    exact absurd h (by decide)
  simp [isNameStart, not_isLetter_of_isDigit h, hlow, hne]

/-- What can begin a name begins no number. -/
theorem not_isDigit_of_isNameStart {c : Char} (h : isNameStart c = true) : isDigit c = false := by
  refine Bool.eq_false_iff.mpr fun hd => ?_
  rw [not_isNameStart_of_isDigit hd] at h
  cases h

/-- No delimiter is a letter, and none is above the code from which on all begin names. -/
theorem not_isDelimiter_of_isNameStart {c : Char} (h : isNameStart c = true) :
    isDelimiter c = false := by
  have hnone : delimiters.all (fun d => !isNameStart d) = true := by decide
  refine Bool.eq_false_iff.mpr fun hd => ?_
  have hc := List.all_eq_true.mp hnone c (List.contains_iff_mem.mp hd)
  rw [h] at hc
  cases hc

theorem not_isWhitespace_of_isQuote {q : Char} (h : isQuote q = true) : isWhitespace q = false := by
  simp only [isQuote, Bool.or_eq_true, beq_iff_eq] at h
  obtain rfl | rfl := h
  all_goals decide

theorem not_isLineEnd_of_isQuote {q : Char} (h : isQuote q = true) : isLineEnd q = false := by
  simp only [isQuote, Bool.or_eq_true, beq_iff_eq] at h
  obtain rfl | rfl := h
  all_goals decide

/-! ## White space and names -/

/-- **Letters are no white space**, in all of Unicode. -/
theorem not_isLetter_of_isWhitespace {c : Char} (h : isWhitespace c = true) : isLetter c = false :=
  CodeRanges.not_contains_of_apart Blank.rising_ranges Alphabetic.rising_ranges
    (by decide +kernel) h

/-- The same, told from the letter. -/
theorem not_isWhitespace_of_isLetter {c : Char} (h : isLetter c = true) :
    isWhitespace c = false := by
  refine Bool.eq_false_iff.mpr fun hw => ?_
  rw [not_isLetter_of_isWhitespace hw] at h
  cases h

theorem not_isDigit_of_isWhitespace {c : Char} (h : isWhitespace c = true) : isDigit c = false := by
  have hdigits : Blank.ranges.all (fun r => r.2 < '0'.toNat || '9'.toNat < r.1) = true := by decide
  refine Bool.eq_false_iff.mpr fun hd => ?_
  obtain ⟨r, hr, hlo, hhi⟩ := (CodeRanges.contains_iff Blank.rising_ranges).mp h
  have hmeet := List.all_eq_true.mp hdigits r hr
  simp only [isDigit, Char.isDigit, Bool.or_eq_true, Bool.and_eq_true, decide_eq_true_eq]
    at hd hmeet
  have hge : '0'.toNat ≤ c.toNat := hd.1
  have hle : c.toNat ≤ '9'.toNat := hd.2
  omega

theorem not_isWhitespace_of_isDigit {c : Char} (h : isDigit c = true) :
    isWhitespace c = false := by
  refine Bool.eq_false_iff.mpr fun hw => ?_
  rw [not_isDigit_of_isWhitespace hw] at h
  cases h

/-- **White space cannot continue a name**, unless it lies above U+00B1. -/
theorem not_isName_of_isWhitespace {c : Char} (h : isWhitespace c = true) (hc : c ≤ '\u00b1') :
    isName c = false := by
  have hlow : ¬ '\u00b1' < c := Char.not_lt.mpr hc
  have hline : c ≠ '_' := by
    rintro rfl
    exact absurd h (by decide)
  have hdash : c ≠ '-' := by
    rintro rfl
    exact absurd h (by decide)
  simp [isName, isNameStart, not_isLetter_of_isWhitespace h, not_isDigit_of_isWhitespace h, hlow,
    hline, hdash]

/-- What begins a name may also go on with it. -/
theorem isName_of_isNameStart {c : Char} (h : isNameStart c = true) : isName c = true := by
  simp [isName, h]

theorem isNameStart_of_isLetter {c : Char} (h : isLetter c = true) : isNameStart c = true := by
  simp [isNameStart, h]

end Chars

end StyleLex
