import StyleLex.Source.Cursor

/-!
# Source/Checked — a cursor in machine words

A cursor has the bounds of its positions in its type, counts in numbers of any size, and has cut off
what follows its window.  A `Checked` cursor has four numbers of which nothing is known, and all of
the text.  So each operation checks what it relies on, and fails if it is not so: a sum has no more
than 64 bits, a difference is not below zero, and what is taken out of the text is in the text.
-/

namespace StyleLex

/-- **A cursor that knows nothing about its numbers.** -/
structure Checked where
  /-- All of the text, what lies outside the window included. -/
  text : List Char
  start : Nat
  stop : Nat
  /-- The position of the next character. -/
  position : Nat
  /-- Everything before this position has been flushed. -/
  committed : Nat
  deriving DecidableEq, Repr

namespace Checked

/-- At the beginning of the window between two positions. -/
def atStart (text : List Char) (start stop : Nat) : Checked := ⟨text, start, stop, start, start⟩

/-! ## Checks -/

/-- The number, if it has no more than 64 bits. -/
def word? (n : Nat) : Option Nat := if n ≤ maxPosition then some n else none

/-- The difference, if it is not below zero. -/
def difference? (m n : Nat) : Option Nat := if n ≤ m then some (m - n) else none

/-- The characters of the text from one position up to another, if these are in order and in the
text. -/
def extract? (s : Checked) (start stop : Nat) : Option (List Char) :=
  if start ≤ stop ∧ stop ≤ s.text.length then some ((s.text.take stop).drop start) else none

/-! ## Operations -/

/-- The number of characters left in the window. -/
def left? (s : Checked) : Option Nat := difference? s.stop s.position

/-- Whether more than `offset` characters are left. -/
def hasMore? (s : Checked) (offset : Nat) : Option Bool := do
  let p ← word? (s.position + offset)
  return p < s.stop

/-- The character at a distance from the next one, or the end. -/
def peek? (s : Checked) (offset : Nat) : Option (Option Char) := do
  if ← s.hasMore? offset then
    let c ← s.text[s.position + offset]?
    return some c
  else
    return none

/-- The text from one position up to another, as far as the window goes. -/
def slice? (s : Checked) (start stop : Nat) : Option String :=
  let stop := min stop s.stop
  if stop ≤ start then some "" else String.ofList <$> s.extract? start stop

/-- Note that everything before the position is flushed, unless that has been noted before. -/
def flush (s : Checked) (p : Nat) : Checked :=
  if s.committed < p then { s with committed := min p s.stop } else s

/-- Consume `n` characters, or all of them if fewer are left, and flush them if `flushing`. -/
def advance? (s : Checked) (n : Nat) (flushing : Bool) : Option Checked := do
  let p ← word? (s.position + n)
  let s' := { s with position := min p s.stop }
  return if flushing then s'.flush s'.position else s'

/-- Go back to the beginning of the window, where nothing is flushed. -/
def rewind (s : Checked) : Checked := atStart s.text s.start s.stop

end Checked

end StyleLex
