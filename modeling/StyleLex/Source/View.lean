import StyleLex.Extent
import StyleLex.Source.Checked

/-!
# Source/View — counting by looking at one place after another

`Extent` counts the characters at the beginning of a list.  Whoever reads from a source has no list:
all that can be done is to look at some offset, and then at another.  A `View` is what is seen
there, and here the same counts are made from nothing else.  A count is `none` if a look fails on
the way, or if a sum has more than 64 bits.

A view has an end, behind which no character is seen.  That is why a count ends: it goes on only
where it has seen a character, and the next place is behind that one.
-/

namespace StyleLex

open Chars Checked

/-- **What is seen at each offset** from the next character: a character or the end, unless the look
fails. -/
structure View where
  look : (offset : Nat) → Option (Option Char)
  /-- An offset from which on no character is seen. -/
  stop : Nat
  lt_stop : ∀ {offset : Nat} {c : Char}, look offset = some (some c) → offset < stop

namespace Checked

/-- What needs a number needs it to have no more than 64 bits. -/
theorem eq_some_of_bind_word? {α : Type} {n : Nat} {f : Nat → Option α} {a : α}
    (h : (word? n).bind f = some a) : f n = some a := by
  unfold word? at h
  split at h
  · exact h
  · cases h

/-- A character is seen before the end of the window only. -/
theorem lt_stop_of_peek? {s : Checked} {offset : Nat} {c : Char}
    (h : s.peek? offset = some (some c)) : s.position + offset < s.stop := by
  simp only [peek?, hasMore?, word?] at h
  split at h
  · refine Decidable.byContradiction fun hge => ?_
    simp [hge] at h
  · cases h

/-- What a cursor in machine words shows. -/
def view (s : Checked) : View where
  look := s.peek?
  stop := s.stop - s.position
  lt_stop h := Nat.lt_sub_of_add_lt (Nat.add_comm .. ▸ lt_stop_of_peek? h)

end Checked

namespace View

/-! ## Runs -/

/-- Go on with a run of which `count` characters are counted, until a character does not have the
property or the limit is reached. -/
def runFrom? (v : View) (p : Char → Bool) (limit : Option Nat) (offset count : Nat) :
    Option Nat := do
  if limit.all (count < ·) then
    match h : (word? (offset + count)).bind v.look with
    | none => none
    | some none => return count
    | some (some c) =>
      if p c then
        let _ ← word? (count + 1)
        v.runFrom? p limit offset (count + 1)
      else
        return count
  else
    return count
termination_by v.stop - (offset + count)
decreasing_by
  have := v.lt_stop (eq_some_of_bind_word? h)
  omega

/-- The run of white space. -/
def whitespace? (v : View) (offset : Nat) : Option Nat := v.runFrom? isWhitespace none offset 0

/-- The run of hexadecimal digits, as far as they belong to one code point. -/
def hexDigits? (v : View) (offset : Nat) : Option Nat :=
  v.runFrom? isHexDigit (some Extent.maxHexDigits) offset 0

/-! ## Names -/

/-- A backslash with what it escapes. -/
def escape? (v : View) (offset : Nat) : Option Nat := do
  if (← v.look offset) ≠ some '\\' then
    return 0
  let next ← word? (offset + 1)
  match ← v.look next with
  | none => return 0
  | some c =>
    if isHexDigit c then word? (1 + (← v.hexDigits? next))
    else if isLineEnd c then return 0
    else return 2

/-- One item of a name: a character with the property, or an escape. -/
def item? (v : View) (p : Char → Bool) (offset : Nat) : Option Nat := do
  match ← v.look offset with
  | none => return 0
  | some c => if p c then return 1 else if c = '\\' then v.escape? offset else return 0

/-- One item that can begin a name. -/
def nameStart? (v : View) (offset : Nat) : Option Nat := v.item? isNameStart offset

/-- One item that can continue a name. -/
def nameItem? (v : View) (offset : Nat) : Option Nat := v.item? isName offset

/-- An item that is not empty begins with a character. -/
theorem lt_stop_of_nameItem? {v : View} {offset n : Nat} (h : v.nameItem? offset = some (n + 1)) :
    offset < v.stop := by
  cases hlook : v.look offset with
  | none => simp [nameItem?, item?, hlook] at h
  | some seen =>
    cases seen with
    | none => simp [nameItem?, item?, hlook] at h
    | some c => exact v.lt_stop hlook

/-- Go on with a name of which `count` characters are counted, until no item follows. -/
def nameFrom? (v : View) (offset count : Nat) : Option Nat := do
  match h : (word? (offset + count)).bind v.nameItem? with
  | none => none
  | some 0 => return count
  | some (n + 1) =>
    let _ ← word? (count + (n + 1))
    v.nameFrom? offset (count + (n + 1))
termination_by v.stop - (offset + count)
decreasing_by
  have := lt_stop_of_nameItem? (eq_some_of_bind_word? h)
  omega

/-- A name: a run of items. -/
def name? (v : View) (offset : Nat) : Option Nat := v.nameFrom? offset 0

/-- An identifier: a name whose first item can begin one. -/
def identifier? (v : View) (offset : Nat) : Option Nat := do
  let first ← v.nameStart? offset
  if first = 0 then
    return 0
  else
    word? (first + (← v.name? (← word? (offset + first))))

end View

/-! ## All that is counted ahead -/

/-- **What is counted at an offset** before anything is consumed. -/
inductive Construct where
  | whitespace
  | identifier
  | name
  | nameStart
  | nameItem
  | escape
  | hexDigits
  deriving DecidableEq, Repr

namespace Construct

/-- How many of the characters form the construct at their beginning. -/
def extent : Construct → List Char → Nat
  | whitespace => Extent.whitespace
  | identifier => Extent.identifier
  | name => Extent.name
  | nameStart => Extent.nameStart
  | nameItem => Extent.nameItem
  | escape => Extent.escape
  | hexDigits => Extent.hexDigits

/-- How many characters form the construct at the offset, counted by looking. -/
def count? : Construct → View → (offset : Nat) → Option Nat
  | whitespace => View.whitespace?
  | identifier => View.identifier?
  | name => View.name?
  | nameStart => View.nameStart?
  | nameItem => View.nameItem?
  | escape => View.escape?
  | hexDigits => View.hexDigits?

end Construct

end StyleLex
