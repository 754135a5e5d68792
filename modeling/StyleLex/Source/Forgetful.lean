import StyleLex.Source.Cursor

/-!
# Source/Forgetful — a source that loses what was flushed

A `Forgetful` cursor takes a flush at its word: a piece that is cut from it holds only characters
from the committed position on, as if the ones before were no longer in memory.  Otherwise it is the
cursor inside it.  A lexer that cuts nothing it has flushed gives the same tokens from either.
-/

namespace StyleLex

/-- **A cursor without a memory for what was flushed.** -/
structure Forgetful where
  cursor : Cursor
  deriving DecidableEq, Repr

namespace Forgetful

/-- The text from one position up to another, less what was flushed of it. -/
def slice (s : Forgetful) (start stop : Nat) : String :=
  s.cursor.slice (max start s.cursor.committed) stop

instance : Reader Forgetful := ⟨fun s => Reader.ahead s.cursor, fun s => Reader.tell s.cursor⟩

instance {m : Type → Type} [Monad m] [Journal m] : Source m Forgetful where
  slice s start stop := pure (s.slice start stop)
  advance s n flushing := mk <$> s.cursor.advance n flushing
  flush s p := mk <$> s.cursor.flush p
  rewind s := pure ⟨s.cursor.rewind⟩

end Forgetful

end StyleLex
