import StyleLex.Journal

/-!
# Source/Basic — where a lexer takes its characters from

A lexer looks at the characters ahead, consumes some, and cuts pieces out of what it has read.
`Reader σ` says what can be seen of a source without changing it, `Source m σ` what can be done to
one, each act being a computation in `m`.

A source may let go of characters that are done with: `flush s p` says that nothing before the
position `p` lies ahead any more.  Positions are absolute; only looking ahead is relative.
-/

namespace StyleLex

/-- **What can be seen of a source** without changing it. -/
class Reader (σ : Type) where
  /-- The characters that are not consumed yet, the next one first. -/
  ahead : σ → List Char
  /-- The position of the next character. -/
  tell : σ → Nat

namespace Reader

variable {σ : Type} [Reader σ]

/-- The character at a distance from the next one, `none` past the end. -/
def peek (s : σ) (offset : Nat) : Option Char := (ahead s)[offset]?

end Reader

/-- **What can be done to a source**, as computations in `m`. -/
class Source (m : Type → Type) (σ : Type) [Reader σ] where
  /-- The characters from the position `start` up to `stop`. -/
  slice : σ → (start stop : Nat) → m String
  /-- Consume `n` characters, and flush everything before the new position if `flushing`. -/
  advance : σ → (n : Nat) → (flushing : Bool) → m σ
  /-- Say that everything before the position is done with. -/
  flush : σ → (position : Nat) → m σ
  /-- Go back to the beginning. -/
  rewind : σ → m σ

/-- Flush if `wanted`, else leave the source as it is. -/
def Source.flushIf {m : Type → Type} {σ : Type} [Monad m] [Reader σ] [Source m σ] (wanted : Bool)
    (s : σ) (position : Nat) : m σ :=
  if wanted then Source.flush s position else pure s

/-! ## The character at a place, for display -/

/-- What stands at a place that may lie past the end. -/
def peekText : Option Char → String
  | some c => c.toString
  | none => "StreamEnd"

/-- The code point at a place; past the end it is that of the null character. -/
def peekCode : Option Char → Nat
  | some c => c.toNat
  | none => 0

end StyleLex
