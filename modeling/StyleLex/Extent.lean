import StyleLex.Chars.Class

/-!
# Extent — how far a construct reaches

Each function takes the characters ahead and counts those that form a certain construct at their
beginning, 0 meaning that there is none.  Nothing is consumed, so the lexer can decide on a token
before it commits to it.

A *name* is a run of items, each a name character or an escape.  `name` walks over the characters
once: after the first character of an escape it carries along how many more belong to it
(`nameFrom`).  `Extent/Lemmas` reads that as one item at a time.
-/

namespace StyleLex

namespace Extent

open Chars

/-! ## Runs -/

/-- The run of characters with a property. -/
def run (p : Char → Bool) (cs : List Char) : Nat := (cs.takeWhile p).length

/-- The run of white space. -/
def whitespace (cs : List Char) : Nat := run isWhitespace cs

/-- The run of letters. -/
def letters (cs : List Char) : Nat := run isLetter cs

/-- The most digits that a code point in hexadecimal has. -/
def maxHexDigits : Nat := 6

/-- The run of hexadecimal digits, as far as they belong to one code point. -/
def hexDigits (cs : List Char) : Nat := run isHexDigit (cs.take maxHexDigits)

/-! ## Names -/

/-- A backslash with what it escapes: a code point in hexadecimal, or any one character that does
not end a line. -/
def escape : List Char → Nat
  | '\\' :: c :: cs =>
    if isHexDigit c then 1 + hexDigits (c :: cs) else if isLineEnd c then 0 else 2
  | _ => 0

/-- One item that can begin a name. -/
def nameStart : List Char → Nat
  | [] => 0
  | c :: cs => if isNameStart c then 1 else escape (c :: cs)

/-- One item that can continue a name. -/
def nameItem : List Char → Nat
  | [] => 0
  | c :: cs => if isName c then 1 else escape (c :: cs)

/-- The run of items, the first `skip` characters being the rest of an item. -/
def nameFrom : (skip : Nat) → List Char → Nat
  | _, [] => 0
  | k + 1, _ :: cs => 1 + nameFrom k cs
  | 0, c :: cs =>
    match nameItem (c :: cs) with
    | 0 => 0
    | k + 1 => 1 + nameFrom k cs

/-- A name: a run of items. -/
def name (cs : List Char) : Nat := nameFrom 0 cs

/-- An identifier: a name whose first item can begin one. -/
def identifier (cs : List Char) : Nat :=
  match nameStart cs with
  | 0 => 0
  | n + 1 => n + 1 + name (cs.drop (n + 1))

/-! ## The insides of comments, strings and resources -/

/-- The rest of the line. -/
def line (cs : List Char) : Nat := run (fun c => !isLineEnd c) cs

/-- The inside of a block comment: everything before the first `*/`, or before the end. -/
def blockComment : List Char → Nat
  | [] => 0
  | c :: cs => if c = '*' ∧ cs.head? = some '/' then 0 else 1 + blockComment cs

/-- The inside of a string with the quote `q`: everything before the quote, the end of the line or
the end.  A character after a backslash belongs to the inside whatever it is; a backslash at the
end does so too. -/
def quoted (q : Char) : List Char → Nat
  | [] => 0
  | c :: cs =>
    if c = q ∨ isLineEnd c then 0
    else if c = '\\' then
      match cs with
      | [] => 1
      | _ :: rest => 2 + quoted q rest
    else 1 + quoted q cs

/-- The inside of a resource without quotes: everything before white space, a closing parenthesis
or the end. -/
def bare (cs : List Char) : Nat := run (fun c => !isWhitespace c && c != ')') cs

/-- The inside of a string and, if it is there, the quote that closes it. -/
def quotedClosed (q : Char) (cs : List Char) : Nat :=
  let n := quoted q cs
  if (cs.drop n).head? = some q then n + 1 else n

end Extent

end StyleLex
