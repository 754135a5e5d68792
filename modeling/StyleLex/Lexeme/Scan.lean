import StyleLex.Lexeme.Enclosed
import StyleLex.Lexeme.Numeric
import StyleLex.Lexeme.Word

/-!
# Lexeme/Scan — the token that comes next

The next character decides what to try (`attempt?`).  An attempt that finds nothing leaves the
character to be an operator (`leading`), so every text has a next token until it ends.  Where two
rules apply to a character the earlier one wins: white space that could be part of a name begins no
name.
-/

namespace StyleLex

namespace Lexeme

open Chars

/-- What begins with `-`, given what follows it: the marker `-->`, a negative number or an
identifier. -/
def minus? (cs : List Char) : Option Lexeme :=
  if cs.take 2 = ['-', '>'] then
    some { kind := .cdataClose, length := 3, release := .consuming }
  else if cs.head?.any isDigit then
    some (numeric true cs)
  else
    dashed? cs

/-- The marker `<!--`, given what follows the `<`. -/
def cdataOpen? (cs : List Char) : Option Lexeme :=
  if cs.take 3 = ['!', '-', '-'] then
    some { kind := .cdataOpen, length := 4, release := .consuming }
  else none

/-- What a mark begins, `cs` being what follows it. -/
def marked? (o : Options) (mark : Char) (cs : List Char) : Option Lexeme :=
  match mark with
  | '/' => comment? o cs
  | '@' => atIdentifier? cs
  | '#' => hashName? cs
  | '$' => variableName? cs
  | '-' => minus? cs
  | '<' => cdataOpen? cs
  | '~' | '|' => if cs.head? = some '=' then some (operator 2) else none
  | _ => none

/-- **What the character `c` begins**, `cs` being what follows it, unless it stands for itself. -/
def attempt? (o : Options) (c : Char) (cs : List Char) : Option Lexeme :=
  if isWhitespace c then
    some { kind := .whitespace, length := 1 + Extent.whitespace cs, release := .consuming }
  else if isDigit c then some (numeric false (c :: cs))
  else if isDelimiter c then some delimiter
  else if isNameStart c then some (word (c :: cs))
  else if isQuote c then some (quoted c cs)
  else marked? o c cs

/-- **The token that the character `c` begins**: an operator if it begins nothing else. -/
def leading (o : Options) (c : Char) (cs : List Char) : Lexeme :=
  (attempt? o c cs).getD (operator 1)

/-- **The next token**: none at the end, and the `*/` if the beginning of its comment was the token
before. -/
def next? (o : Options) (closing : Bool) : List Char → Option Lexeme
  | [] => none
  | c :: cs => some (if closing then commentClose else leading o c cs)

end Lexeme

end StyleLex
