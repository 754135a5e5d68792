/-!
# Location — lines, columns and offsets

A `Location` is where a token begins: its line and column, for a reader, and its offset in
characters.  A `Tracker` keeps the location of the next character while characters are consumed.
It counts from the beginning of the text (`relative`) and adds the location at which the text
itself begins (`origin`) only on demand, so a text embedded in a larger document is counted like
any other.  A column continues the one of the origin on the first line only.
-/

namespace StyleLex

/-- **A place in a document.** -/
structure Location where
  /-- Lines count from 1. -/
  line : Nat
  /-- Columns count from 1. -/
  column : Nat
  /-- Characters before this one, from 0. -/
  offset : Nat
  deriving DecidableEq, Repr

namespace Location

/-- Where a document begins. -/
def first : Location := ⟨1, 1, 0⟩

instance : Inhabited Location := ⟨first⟩

/-- Line and column, as a message to a reader shows them. -/
def render (loc : Location) : String := s!"{loc.line}:{loc.column}"

/-- Line and column in parentheses, as a diagnostic dump shows them. -/
def renderDebug (loc : Location) : String := s!"({loc.line}:{loc.column})"

/-- The place one character further on the same line. -/
def afterChar (loc : Location) : Location :=
  { loc with column := loc.column + 1, offset := loc.offset + 1 }

/-- The place one character further, at the beginning of the next line. -/
def afterBreak (loc : Location) : Location := ⟨loc.line + 1, 1, loc.offset + 1⟩

/-- The place after the character `c` that is followed by `next`.  A line feed or form feed ends a
line; a carriage return does so unless a line feed follows, which then ends it for both. -/
def after (loc : Location) (c : Char) (next : Option Char) : Location :=
  if c = '\n' ∨ c = '\x0c' ∨ (c = '\r' ∧ next ≠ some '\n') then loc.afterBreak else loc.afterChar

/-- The place in the document of a place that is counted from the beginning of an embedded text,
the text beginning at `origin`, in numbers of any size.  In words it is `withinM`. -/
def within (origin loc : Location) : Location where
  line := origin.line + loc.line - 1
  column := if loc.line = 1 then origin.column + loc.column - 1 else loc.column
  offset := origin.offset + loc.offset

end Location

/-- **The location of the next character**, kept up to date while characters are consumed. -/
structure Tracker where
  /-- Where the text begins in its document. -/
  origin : Location
  /-- The place of the next character, counted from the beginning of the text. -/
  relative : Location
  deriving DecidableEq, Repr

namespace Tracker

/-- At the beginning of a text that begins at `origin`. -/
def startingAt (origin : Location) : Tracker := ⟨origin, Location.first⟩

/-- Back at the beginning of the text. -/
def reset (t : Tracker) : Tracker := startingAt t.origin

/-- The place of the next character in the document. -/
def current (t : Tracker) : Location := t.origin.within t.relative

/-- Count the character `c`, followed by `next`; the end of the text is `none` and counts
nothing. -/
def step (t : Tracker) : (c next : Option Char) → Tracker
  | none, _ => t
  | some c, next => { t with relative := t.relative.after c next }

/-- Count the first `n` characters of `cs`, or all of them if there are fewer. -/
def advance (t : Tracker) : (n : Nat) → (cs : List Char) → Tracker
  | 0, _ => t
  | _, [] => t
  | n + 1, c :: cs => (t.step (some c) cs.head?).advance n cs

/-- Count all the characters of `cs`. -/
def feed (t : Tracker) (cs : List Char) : Tracker := t.advance cs.length cs

end Tracker

end StyleLex
