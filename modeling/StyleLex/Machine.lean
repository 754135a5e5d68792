import StyleLex.Source.Checked

/-!
# Machine — counting in words

A location is the sum of where a text begins and what was counted in it.  With numbers of any size
that is the end of it.  A program has words of 64 bits, and what it makes of a sum that does not fit
depends on how it was built: it stops, or it goes on without the bits that do not fit (`Build`).
`Machine b` are the computations of a program built in one way or the other, and `Counting m` says
what a computation in `m` makes of sums and differences.

`Tracker.currentM` and `Tracker.stepM` count locations in any such computation.  The order of the
sums and differences matters, because one of them may not fit while their outcome would: the line
of the beginning is added before 1 is taken off again.
-/

namespace StyleLex

/-! ## Computations that count -/

/-- **How a computation counts**: what it makes of a sum and of a difference. -/
class Counting (m : Type → Type) where
  add : (i j : Nat) → m Nat
  sub : (i j : Nat) → m Nat

/-- A plain computation counts in numbers of any size. -/
instance : Counting Id := ⟨fun i j => i + j, fun i j => i - j⟩

/-- So does one that can fail for a reason of its own. -/
instance {ε : Type} : Counting (Except ε) := ⟨fun i j => .ok (i + j), fun i j => .ok (i - j)⟩

/-! ## Words -/

/-- **How a program is built**: what it does about a sum or a difference that is no number of 64
bits. -/
inductive Build where
  /-- It stops. -/
  | checked
  /-- It goes on with the last 64 bits. -/
  | wrapping
  deriving DecidableEq, Repr

/-- **What a program computes** that is built so: a value, or nothing if it stops. -/
def Machine (_ : Build) (α : Type) : Type := Option α

namespace Machine

variable {b : Build}

instance : Monad (Machine b) := inferInstanceAs (Monad Option)

instance : LawfulMonad (Machine b) := inferInstanceAs (LawfulMonad Option)

instance {α : Type} [DecidableEq α] : DecidableEq (Machine b α) :=
  inferInstanceAs (DecidableEq (Option α))

/-- The value of a step that either way of building fails to take if it has none. -/
def ofOption {α : Type} (x : Option α) : Machine b α := x

/-- The numbers of 64 bits. -/
def wordSize : Nat := maxPosition + 1

instance : Counting (Machine b) where
  add i j :=
    match b with
    | .checked => ofOption (Checked.word? (i + j))
    | .wrapping => pure ((i + j) % wordSize)
  sub i j :=
    match b with
    | .checked => ofOption (Checked.difference? i j)
    | .wrapping => pure ((i + wordSize - j) % wordSize)

end Machine

/-! ## Locations -/

variable {m : Type → Type} [Monad m] [Counting m]

namespace Location

/-- The column in the document of a place that is counted from the beginning of an embedded text. -/
def columnWithinM (origin loc : Location) : m Nat :=
  if loc.line = 1 then do Counting.sub (← Counting.add origin.column loc.column) 1
  else pure loc.column

/-- The place in the document of a place that is counted from the beginning of an embedded text,
the text beginning at `origin`. -/
def withinM (origin loc : Location) : m Location := do
  let column ← origin.columnWithinM loc
  let line ← Counting.sub (← Counting.add origin.line loc.line) 1
  let offset ← Counting.add origin.offset loc.offset
  return ⟨line, column, offset⟩

/-- The place after the character `c` that is followed by `next`. -/
def afterM (loc : Location) (c : Char) (next : Option Char) : m Location :=
  if c = '\n' ∨ c = '\x0c' ∨ (c = '\r' ∧ next ≠ some '\n') then do
    let line ← Counting.add loc.line 1
    return ⟨line, 1, ← Counting.add loc.offset 1⟩
  else do
    let column ← Counting.add loc.column 1
    return ⟨loc.line, column, ← Counting.add loc.offset 1⟩

end Location

namespace Tracker

/-- The place of the next character in the document. -/
def currentM (t : Tracker) : m Location := t.origin.withinM t.relative

/-- Count the character `c`, followed by `next`; the end of the text is `none` and counts
nothing. -/
def stepM (t : Tracker) : (c next : Option Char) → m Tracker
  | none, _ => return t
  | some c, next => return { t with relative := ← t.relative.afterM c next }

end Tracker

end StyleLex
