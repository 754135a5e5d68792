import StyleLex.Chars.Alphabetic
import StyleLex.Chars.Blank

/-!
# Chars/Class — what kinds of characters the lexer tells apart

The first part holds one predicate per class of characters.  Digits and hexadecimal digits are
those of ASCII; letters and white space are Unicode properties (`Chars/Alphabetic`, `Chars/Blank`).
A name may hold every character above U+00B1, so a space such as U+3000 is white space *and* part
of a name: which of the two it is depends on where it stands.

The second part gives the classes names of their own (`CharClass`), lists the classes of a
character and the runs of code points that belong to a class.
-/

namespace StyleLex

namespace Chars

/-- Space between tokens: the Unicode property `White_Space`. -/
def isWhitespace (c : Char) : Bool := Blank.ranges.contains c.toNat

/-- A decimal digit of ASCII. -/
def isDigit (c : Char) : Bool := c.isDigit

/-- A hexadecimal digit of ASCII, in either case. -/
def isHexDigit (c : Char) : Bool :=
  c.isDigit || ('a' ≤ c && c ≤ 'f') || ('A' ≤ c && c ≤ 'F')

/-- A letter: the Unicode property `Alphabetic`. -/
def isLetter (c : Char) : Bool := Alphabetic.ranges.contains c.toNat

/-- A carriage return, line feed or form feed. -/
def isLineEnd (c : Char) : Bool := c == '\r' || c == '\n' || c == '\x0c'

/-- The characters that always form a token on their own. -/
def delimiters : List Char := ['{', '}', '(', ')', '[', ']', ':', ';', ',']

/-- One of `delimiters`. -/
def isDelimiter (c : Char) : Bool := delimiters.contains c

/-- A character that can begin a name: every character above U+00B1, `_` and the letters. -/
def isNameStart (c : Char) : Bool := '\u00b1' < c || c == '_' || isLetter c

/-- A character that can continue a name: `-` and the digits too. -/
def isName (c : Char) : Bool := isNameStart c || c == '-' || isDigit c

/-- A single or double quote, which begins a string. -/
def isQuote (c : Char) : Bool := c == '"' || c == '\''

end Chars

/-! ## The classes by name -/

/-- **The classes of characters**, as values. -/
inductive CharClass where
  | whitespace | digit | hexDigit | letter | lineEnd | delimiter | nameStart | name
  deriving DecidableEq, Repr

namespace CharClass

/-- Every class, in the order in which the classes of a character are listed. -/
def all : List CharClass :=
  [whitespace, digit, hexDigit, letter, lineEnd, delimiter, nameStart, name]

/-- What a class is called. -/
def label : CharClass → String
  | whitespace => "whitespace"
  | digit => "digit"
  | hexDigit => "hex"
  | letter => "letter"
  | lineEnd => "line_terminator"
  | delimiter => "delimiter"
  | nameStart => "name_start"
  | name => "name"

/-- The class of that label. -/
def ofLabel? (label : String) : Option CharClass := all.find? (·.label == label)

/-- Membership of a class. -/
def holds : CharClass → Char → Bool
  | whitespace => Chars.isWhitespace
  | digit => Chars.isDigit
  | hexDigit => Chars.isHexDigit
  | letter => Chars.isLetter
  | lineEnd => Chars.isLineEnd
  | delimiter => Chars.isDelimiter
  | nameStart => Chars.isNameStart
  | name => Chars.isName

/-- The classes that a character belongs to. -/
def classify (c : Char) : List CharClass := all.filter (·.holds c)

/-- Membership of the character with code point `n`.  A surrogate, or a number above the last code
point, is no character and belongs to no class. -/
def holdsAt (cls : CharClass) (n : Nat) : Bool :=
  decide n.isValidChar && cls.holds (Char.ofNat n)

/-- Append `n` to a list of runs, the last run first: it lengthens the run that ends just below
it, or begins a run of its own. -/
def extendRuns : CodeRanges → Nat → CodeRanges
  | (lo, hi) :: rest, n => if hi + 1 = n then (lo, n) :: rest else (n, n) :: (lo, hi) :: rest
  | [], n => [(n, n)]

/-- The maximal runs of code points from `first` to `last`, both included, that belong to the
class.  Nothing above the last code point does, so the search ends there. -/
def runs (cls : CharClass) (first last : Nat) : CodeRanges :=
  (Nat.fold (min last 0x10FFFF + 1 - first)
    (fun i _ found => if cls.holdsAt (first + i) then extendRuns found (first + i) else found)
    []).reverse

end CharClass

end StyleLex
