import StyleLex.Location

/-!
# Config — what a caller can choose

A `Config` names the window of the text to be lexed, where that window stands in a larger document
(`positionOffset` for positions, `location` for lines and columns) and the `Options` in force.
-/

namespace StyleLex

/-! ## Positions

A position counts the characters before it.  Positions have 64 bits, and moving one by an offset
stops at the largest. -/

/-- The largest position: the largest number of 64 bits. -/
def maxPosition : Nat := 18446744073709551615

/-- The position `p`, moved by `offset`. -/
def shiftPosition (offset p : Nat) : Nat := min (p + offset) maxPosition

/-! ## Options -/

/-- **Choices about the tokens to produce.** -/
structure Options where
  /-- Give a closed block comment as two tokens: the comment without its `*/`, and the `*/`. -/
  commentMarkers : Bool := false
  deriving DecidableEq, Repr

namespace Options

/-- The options held by a set of bits.  Bits without a meaning are dropped. -/
def ofBits (bits : Nat) : Options := ⟨bits % 2 == 1⟩

/-- The set of bits that holds the options. -/
def toBits (o : Options) : Nat := o.commentMarkers.toNat

/-- Whether every option of `query` is in force; with nothing asked for it is so. -/
def includes (o query : Options) : Bool := !query.commentMarkers || o.commentMarkers

/-- The names of the options in force. -/
def label (o : Options) : String :=
  if o.commentMarkers then "MULTILINE_COMMENT_BEGIN_END_TOKENS" else "NONE"

end Options

/-! ## The configuration -/

/-- **How to lex a text.** -/
structure Config where
  /-- The position of the first character to lex. -/
  start : Nat := 0
  /-- The position after the last character to lex, by default the end of the text. -/
  stop : Option Nat := none
  /-- Added to the positions of every token. -/
  positionOffset : Nat := 0
  /-- Where the first character stands in its document. -/
  location : Location := Location.first
  options : Options := {}
  deriving DecidableEq, Repr

instance : Inhabited Config := ⟨{}⟩

end StyleLex
