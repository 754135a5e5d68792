import StyleLex.Lexeme.Basic

/-!
# Lexeme/Word — names, functions, resources and what else begins like a name

A name stands alone (an identifier), after `@` or `#`, or before a parenthesis, which then belongs
to the token (a function).  After `url` and `uri` the parenthesis opens a resource, which is lexed
as a whole and may be quoted.  `u+` before a hexadecimal digit is a range of code points.
-/

namespace StyleLex

namespace Lexeme

open Chars

/-- The name of a function whose argument is lexed as a resource. -/
def isScheme (name : List Char) : Bool := name == ['u', 'r', 'l'] || name == ['u', 'r', 'i']

/-- The place of the value of a resource, and how many characters it takes up.  The value ends like
a string if it is quoted, and else at white space or the closing parenthesis. -/
def resource : List Char → Span × Nat
  | [] => (⟨0, 0⟩, 0)
  | c :: cs =>
    if isQuote c then (⟨1, 1 + Extent.quoted c cs⟩, 1 + Extent.quotedClosed c cs)
    else (⟨0, Extent.bare (c :: cs)⟩, Extent.bare (c :: cs))

/-- A resource whose scheme has `n` characters, `cs` being what follows the parenthesis: white
space, the value, white space, and the closing parenthesis if it is there. -/
def uri (n : Nat) (cs : List Char) : Lexeme :=
  let start := n + 1 + Extent.whitespace cs
  let body := cs.drop (Extent.whitespace cs)
  let value := resource body
  let after := body.drop value.2
  let blank := Extent.whitespace after
  let close := if (after.drop blank).head? = some ')' then 1 else 0
  { kind := .uri
    length := start + value.2 + blank + close
    payload := .uri ⟨0, n⟩ (value.1.shift start) }

/-- The identifier, function or resource whose name `cs` begins with. -/
def named (cs : List Char) : Lexeme :=
  let n := Extent.name cs
  let rest := cs.drop n
  if rest.head? = some '(' then
    if isScheme (cs.take n) then uri n rest.tail else { kind := .function, length := n + 1 }
  else
    { kind := .identifier, length := n, release := .consuming }

/-- The end of a range of code points: `-` and a code point in hexadecimal, or nothing. -/
def rangeEnd : List Char → Nat
  | '-' :: cs =>
    match Extent.hexDigits cs with
    | 0 => 0
    | n + 1 => 1 + (n + 1)
  | _ => 0

/-- A range of code points: `u+`, a code point in hexadecimal, and possibly an end. -/
def unicodeRange? : List Char → Option Lexeme
  | 'u' :: '+' :: cs =>
    match Extent.hexDigits cs with
    | 0 => none
    | n + 1 => some {
        kind := .unicodeRange
        length := 2 + (n + 1) + rangeEnd (cs.drop (n + 1))
        release := .complete }
  | _ => none

/-- What begins with a character that can begin a name. -/
def word (cs : List Char) : Lexeme := (unicodeRange? cs).getD (named cs)

/-- A mark with the `n` characters behind it that belong to it, unless there are none. -/
def counted? (kind : Kind) (n : Nat) (payload : Payload Span := .none) : Option Lexeme :=
  match n with
  | 0 => none
  | n + 1 => some { kind, length := 1 + (n + 1), payload, release := .consuming }

/-- An identifier after `@`. -/
def atIdentifier? (cs : List Char) : Option Lexeme := counted? .atIdentifier (Extent.identifier cs)

/-- A name after `#`. -/
def hashName? (cs : List Char) : Option Lexeme := counted? .hashName (Extent.name cs)

/-- An identifier that begins with `-`, given what follows it. -/
def dashed? (cs : List Char) : Option Lexeme := counted? .identifier (Extent.name cs)

/-- A variable, given what follows the `$`: anything in braces, where the closing one may be
missing at the end, or letters. -/
def variableName? : List Char → Option Lexeme
  | '{' :: cs =>
    let n := Extent.run (· != '}') cs
    let close := if (cs.drop n).isEmpty then 0 else 1
    some {
      kind := .variableName
      length := 2 + n + close
      payload := .text ⟨2, 2 + n⟩
      release := .consuming }
  | cs => counted? .variableName (Extent.letters cs) (.text ⟨1, 1 + Extent.letters cs⟩)

end Lexeme

end StyleLex
