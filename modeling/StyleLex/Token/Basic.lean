import StyleLex.Config
import StyleLex.Decimal
import StyleLex.Token.Kind
import StyleLex.Token.Payload

/-!
# Token/Basic — tokens and how they are looked at

A `Token` is a piece of the text with its kind, place and decoded value.  The views below answer
what a parser or a printer asks of it.  `cleanText` is the text to write back: a comment with a
decoded value is always written in block form, so that it may stand before other tokens.
-/

namespace StyleLex

/-- **A token.**  Its positions include the offset of the configuration. -/
structure Token where
  kind : Kind
  /-- The position of the first character. -/
  start : Nat
  /-- The position after the last character. -/
  stop : Nat
  /-- The exact piece of the text. -/
  text : String
  /-- The line and column of the first character. -/
  location : Location
  payload : Payload String
  deriving DecidableEq, Repr

namespace Token

/-- The number of characters between the two positions. -/
def length (t : Token) : Nat := t.stop - t.start

/-- Whether there are none. -/
def isEmpty (t : Token) : Bool := t.start == t.stop

/-! ## The decoded value -/

/-- What is read of a number, percentage or dimension. -/
def reading? (t : Token) : Option Reading :=
  match t.payload with
  | .number value | .dimension value _ => some value
  | _ => none

/-- The value of a number, percentage or dimension, as a number of a library. -/
def number? {δ : Type} (lib : DecimalLibrary δ) (t : Token) : Option δ := t.reading?.map lib.number

/-- The unit of a dimension. -/
def unit? (t : Token) : Option String :=
  match t.payload with
  | .dimension _ unit => some unit
  | _ => none

/-- The inside of a string, comment, variable or resource. -/
def value? (t : Token) : Option String :=
  match t.payload with
  | .text value | .uri _ value => some value
  | _ => none

/-- The `url` or `uri` before a resource, as written. -/
def scheme? (t : Token) : Option String :=
  match t.payload with
  | .uri scheme _ => some scheme
  | _ => none

/-! ## Tests -/

def isWhitespace (t : Token) : Bool := t.kind == .whitespace

def isComment (t : Token) : Bool := t.kind == .comment

/-- Whether the token is that delimiter. -/
def isDelimiter (t : Token) (c : Char) : Bool := t.kind == .delimiter && t.text.toList == [c]

/-- Whether the token is that operator of one character. -/
def isOperator (t : Token) (c : Char) : Bool := t.kind == .operator && t.text.toList == [c]

/-! ## Writing -/

/-- The text to write back. -/
def cleanText (t : Token) : String :=
  match t.kind, t.payload with
  | .comment, .text value => "/*" ++ value ++ "*/"
  | _, _ => t.text

/-- The token in words: its kind, and its decoded value or text unless it is white space. -/
def render (t : Token) : String :=
  if t.kind = .whitespace then t.kind.label
  else t.kind.label ++ ": " ++ t.value?.getD t.text

/-! ## Another kind -/

/-- The token as a color, if it is a hash name or identifier; any other token stays as it is. -/
def toColor (t : Token) : Token :=
  match t.kind with
  | .hashName | .identifier => { t with kind := .color }
  | _ => t

end Token

end StyleLex
