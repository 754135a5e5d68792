import StyleLex.Source.Cursor

/-!
# Source/Strict — a source that refuses to be misused

A cursor stops quietly at the end of its window.  A `Strict` cursor fails instead when it is asked
to consume more than is left, or to cut a piece that is not inside the window.  A lexer that runs
on it without failing never relied on the quiet stop.
-/

namespace StyleLex

/-- **What a strict cursor refuses.** -/
inductive Misuse where
  /-- To consume `n` characters where fewer are left. -/
  | advance (n left : Nat)
  /-- To cut a piece that is not inside the window. -/
  | slice (start stop : Nat)
  deriving DecidableEq, Repr

/-- **A cursor that refuses to leave its window.** -/
structure Strict where
  cursor : Cursor
  deriving DecidableEq, Repr

namespace Strict

/-- The text from one position up to another, both inside the window and in order. -/
def slice (s : Strict) (start stop : Nat) : Except Misuse String :=
  if s.cursor.window.start ≤ start ∧ start ≤ stop ∧ stop ≤ s.cursor.window.stop then
    .ok (s.cursor.slice start stop)
  else
    .error (.slice start stop)

/-- Consume `n` characters if as many are left. -/
def advance (s : Strict) (n : Nat) (flushing : Bool) : Except Misuse Strict :=
  if n ≤ s.cursor.left then mk <$> s.cursor.advance n flushing
  else .error (.advance n s.cursor.left)

instance : Reader Strict := ⟨fun s => Reader.ahead s.cursor, fun s => Reader.tell s.cursor⟩

instance : Source (Except Misuse) Strict where
  slice := slice
  advance := advance
  flush s p := mk <$> s.cursor.flush p
  rewind s := pure ⟨s.cursor.rewind⟩

end Strict

end StyleLex
