import StyleLex.Config
import StyleLex.Lexeme.Basic

/-!
# Lexeme/Enclosed — comments and strings

A line comment ends before the end of its line, a block comment with the first `*/`; nothing inside
them has a meaning.  With the option `commentMarkers` a block comment that is closed ends before
the `*/`, which is then a token of its own.  A string ends with its quote, and without it before
the end of the line.
-/

namespace StyleLex

namespace Lexeme

/-- A line comment, given what follows the `//`. -/
def lineComment (cs : List Char) : Lexeme :=
  let n := Extent.line cs
  { kind := .comment, length := 2 + n, payload := .text ⟨2, 2 + n⟩ }

/-- A block comment, given what follows the `/*`. -/
def blockComment (o : Options) (cs : List Char) : Lexeme :=
  let n := Extent.blockComment cs
  let closed := n < cs.length
  if o.commentMarkers then
    { kind := .comment, length := 2 + n, payload := .text ⟨2, 2 + n⟩, opensComment := closed }
  else
    { kind := .comment
      length := 2 + n + if closed then 2 else 0
      payload := .text ⟨2, 2 + n⟩
      release := .complete }

/-- A comment, given what follows its first `/`. -/
def comment? (o : Options) : List Char → Option Lexeme
  | '/' :: cs => some (lineComment cs)
  | '*' :: cs => some (blockComment o cs)
  | _ => none

/-- The `*/` of a block comment whose beginning was a token of its own. -/
def commentClose : Lexeme := { kind := .comment, length := 2, release := .complete }

/-- A string, given what follows its quote `q`. -/
def quoted (q : Char) (cs : List Char) : Lexeme where
  kind := .string
  length := 1 + Extent.quotedClosed q cs
  payload := .text ⟨1, 1 + Extent.quoted q cs⟩

end Lexeme

end StyleLex
