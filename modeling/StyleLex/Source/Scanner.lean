import StyleLex.Machine
import StyleLex.Source.Strict
import StyleLex.Source.View

/-!
# Source/Scanner — looking ahead as a computation

A `Reader` shows all the characters ahead at once.  A `Scanner` is asked for one place after
another, and what it is asked for is computed: `look` gives the character at an offset, `count` and
`run` count the characters that form a construct or have a property.

A cursor looks at the characters of its window.  A cursor in machine words has all of the text, and
looks where its numbers say.  A look outside the text stops the program however it was built.  So
does here a look, or a step, to a position of more than 64 bits: what it would come to without
checks is left open, as a lexer in words never goes that far (`Checked.Follows.add_le`).
-/

namespace StyleLex

/-- **How a source is looked at**, place by place, by computations in `m`. -/
class Scanner (m : Type → Type) (σ : Type) where
  /-- Whether more than `offset` characters are left. -/
  hasMore : σ → (offset : Nat) → m Bool
  /-- The character at a distance from the next one, or the end. -/
  look : σ → (offset : Nat) → m (Option Char)
  /-- How many characters form the construct at an offset. -/
  count : σ → Construct → (offset : Nat) → m Nat
  /-- How many characters with the property there are from an offset on, one behind the other. -/
  run : σ → (p : Char → Bool) → (offset : Nat) → m Nat

namespace Scanner

/-- Looking at the characters that a source shows. -/
@[reducible] def ofReader {m : Type → Type} {σ : Type} [Monad m] [Reader σ] : Scanner m σ where
  hasMore s offset := pure (offset < (Reader.ahead s).length)
  look s offset := pure (Reader.peek s offset)
  count s k offset := pure (k.extent ((Reader.ahead s).drop offset))
  run s p offset := pure (Extent.run p ((Reader.ahead s).drop offset))

instance {m : Type → Type} [Monad m] : Scanner m Cursor := ofReader

instance {m : Type → Type} [Monad m] : Scanner m Strict := ofReader

end Scanner

/-! ## The cursor in machine words as a source -/

namespace Checked

open Machine

variable {b : Build}

instance : Reader Checked := ⟨fun s => (s.text.take s.stop).drop s.position, position⟩

instance : Source (Machine b) Checked where
  slice s start stop := ofOption (s.slice? start stop)
  advance s n flushing := ofOption (s.advance? n flushing)
  flush s p := pure (s.flush p)
  rewind s := pure s.rewind

instance : Scanner (Machine b) Checked where
  hasMore s offset := ofOption (s.hasMore? offset)
  look s offset := ofOption (s.peek? offset)
  count s k offset := ofOption (k.count? s.view offset)
  run s p offset := ofOption (s.view.runFrom? p none offset 0)

end Checked

end StyleLex
