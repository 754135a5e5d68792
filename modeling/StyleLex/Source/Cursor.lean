import StyleLex.Source.Basic

/-!
# Source/Cursor — reading a text held in memory

A `Window` is a stretch of a text, and `Window.of?` refuses one that is not inside its text.  A
`Cursor` reads a window from its beginning to its end.  Positions are those of the text, so the
first character of the window has the position `start`, not 0.

What follows the window is cut off when the window is made, so nothing can look at it: consuming
too much stops at the end, and a piece that is asked for ends there too.  What precedes the window
is kept, because pieces are cut by their positions.  A cursor forgets nothing when it is flushed;
it only notes how far.
-/

namespace StyleLex

/-! ## Windows -/

/-- **A window that is not inside its text.** -/
structure RangeError where
  start : Nat
  stop : Nat
  /-- The number of characters in the text. -/
  length : Nat
  deriving DecidableEq, Repr

namespace RangeError

/-- The error in words. -/
def message (e : RangeError) : String :=
  s!"invalid source range {e.start}..{e.stop} for a text of {e.length} characters"

end RangeError

/-- **A stretch of a text** that begins at the position `start`. -/
structure Window where
  /-- The text up to the end of the window. -/
  text : List Char
  start : Nat
  start_le_length : start ≤ text.length
  deriving DecidableEq, Repr

namespace Window

/-- The position after the last character of the window. -/
def stop (w : Window) : Nat := w.text.length

/-- The characters in the window. -/
def chars (w : Window) : List Char := w.text.drop w.start

/-- All of a text. -/
def full (text : List Char) : Window := ⟨text, 0, Nat.zero_le _⟩

/-- The window of a text between two positions, the second by default the end of the text. -/
def of? (text : List Char) (start : Nat) (stop : Option Nat) : Except RangeError Window :=
  let stop := stop.getD text.length
  if h : start ≤ stop ∧ stop ≤ text.length then
    .ok ⟨text.take stop, start, by rw [List.length_take, Nat.min_eq_left h.2]; exact h.1⟩
  else
    .error ⟨start, stop, text.length⟩

end Window

/-! ## Cursors -/

/-- **A place in a window** up to which it has been read. -/
structure Cursor where
  window : Window
  /-- The position of the next character. -/
  position : Nat
  /-- Everything before this position has been flushed. -/
  committed : Nat
  start_le_position : window.start ≤ position
  position_le_stop : position ≤ window.stop
  start_le_committed : window.start ≤ committed
  committed_le_stop : committed ≤ window.stop
  deriving DecidableEq, Repr

namespace Cursor

/-- At the beginning of a window. -/
def atStart (w : Window) : Cursor where
  window := w
  position := w.start
  committed := w.start
  start_le_position := Nat.le_refl _
  position_le_stop := w.start_le_length
  start_le_committed := Nat.le_refl _
  committed_le_stop := w.start_le_length

/-- At the beginning of a text. -/
def ofText (text : List Char) : Cursor := atStart (.full text)

/-- The characters of the window from the next one on. -/
def ahead (c : Cursor) : List Char := c.window.text.drop c.position

/-- The number of characters left in the window. -/
def left (c : Cursor) : Nat := c.window.stop - c.position

/-- Whether more than `n` characters are left. -/
def hasMore (c : Cursor) (n : Nat) : Bool := n < c.left

/-- Whether no characters are left. -/
def atEnd (c : Cursor) : Bool := !c.hasMore 0

/-- The text from one position up to another, as far as the window goes. -/
def slice (c : Cursor) (start stop : Nat) : String :=
  String.ofList ((c.window.text.drop start).take (stop - start))

/-- Consume `n` characters, or all of them if fewer are left. -/
def skip (c : Cursor) (n : Nat) : Cursor :=
  { c with
    position := min (c.position + n) c.window.stop
    start_le_position := by have := c.start_le_position; have := c.position_le_stop; omega
    position_le_stop := by omega }

/-- Note that everything before the position is flushed.  It never goes backwards, and not past
the end of the window. -/
def commit (c : Cursor) (p : Nat) : Cursor :=
  { c with
    committed := max c.committed (min p c.window.stop)
    start_le_committed := by have := c.start_le_committed; omega
    committed_le_stop := by have := c.committed_le_stop; omega }

/-- Go back to the beginning of the window, where nothing is flushed. -/
def rewind (c : Cursor) : Cursor := atStart c.window

@[simp] theorem length_ahead (c : Cursor) : c.ahead.length = c.left := List.length_drop

/-- **Consuming drops what was ahead.** -/
@[simp] theorem ahead_skip (c : Cursor) (n : Nat) : (c.skip n).ahead = c.ahead.drop n := by
  simp only [ahead, skip, List.drop_drop, Window.stop]
  by_cases h : c.position + n ≤ c.window.text.length
  · rw [Nat.min_eq_left h]
  · rw [List.drop_of_length_le (by omega), List.drop_of_length_le (by omega)]

@[simp] theorem ahead_commit (c : Cursor) (p : Nat) : (c.commit p).ahead = c.ahead := rfl

@[simp] theorem ahead_rewind (c : Cursor) : c.rewind.ahead = c.window.chars := rfl

/-! ## The cursor as a source -/

instance : Reader Cursor := ⟨ahead, position⟩

variable {m : Type → Type} [Monad m] [Journal m]

/-- What there is to report about a flush: nothing if no character is newly flushed. -/
def flushEntries (c : Cursor) (p : Nat) : List Entry :=
  if c.committed < p then [.flushed p] else []

/-- Flush, and report it if there is anything to report. -/
def flush (c : Cursor) (p : Nat) : m Cursor := do
  Journal.report (c.flushEntries p)
  return c.commit p

/-- Consume `n` characters, and flush them if `flushing`. -/
def advance (c : Cursor) (n : Nat) (flushing : Bool) : m Cursor :=
  if flushing then (c.skip n).flush (c.skip n).position else pure (c.skip n)

instance : Source m Cursor where
  slice c start stop := pure (c.slice start stop)
  advance := advance
  flush := flush
  rewind c := pure c.rewind

end Cursor

end StyleLex
