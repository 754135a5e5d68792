import StyleLex.Chars.Ranges

/-!
# Chars/Blank — the white space of Unicode

The code points with the Unicode property `White_Space`.
-/

namespace StyleLex.Chars.Blank

/-- **The property `White_Space`**: the blanks and line ends of ASCII, next line, no-break space,
and the spaces and separators of general punctuation. -/
def ranges : CodeRanges :=
  [(0x0009, 0x000D), (0x0020, 0x0020), (0x0085, 0x0085), (0x00A0, 0x00A0), (0x1680, 0x1680),
   (0x2000, 0x200A), (0x2028, 0x2029), (0x202F, 0x202F), (0x205F, 0x205F), (0x3000, 0x3000)]

theorem rising_ranges : CodeRanges.RisingFrom 0 ranges := by decide

end StyleLex.Chars.Blank
