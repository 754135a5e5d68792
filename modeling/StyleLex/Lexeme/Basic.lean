import StyleLex.Extent
import StyleLex.Token.Kind
import StyleLex.Token.Payload

/-!
# Lexeme/Basic — what the characters ahead begin with

A `Lexeme` is a token that has been measured but not cut yet: its kind, how many characters it
has, and where in it the pieces of its payload lie.  It is found by looking ahead only, so an
attempt that fails has changed nothing.
-/

namespace StyleLex

/-- **When the characters of a token are flushed.** -/
inductive Release where
  /-- Not at all. -/
  | never
  /-- While they are consumed, before the text of the token is cut. -/
  | consuming
  /-- After the token is complete. -/
  | complete
  deriving DecidableEq, Repr

/-- **A measured token.** -/
structure Lexeme where
  kind : Kind
  /-- The number of characters. -/
  length : Nat
  /-- The decoded value, its pieces of text given by their places. -/
  payload : Payload Span := .none
  release : Release := .never
  /-- Whether the next token is the `*/` that closes this one. -/
  opensComment : Bool := false
  deriving DecidableEq, Repr

namespace Lexeme

/-- An operator of `n` characters, which is what any character begins that begins nothing else. -/
def operator (n : Nat) : Lexeme := { kind := .operator, length := n }

/-- One of the delimiters. -/
def delimiter : Lexeme := { kind := .delimiter, length := 1 }

end Lexeme

end StyleLex
