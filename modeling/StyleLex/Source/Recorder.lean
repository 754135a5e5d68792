import StyleLex.Source.Basic

/-!
# Source/Recorder — a source that remembers its flushes

A `Recorder` behaves like the source inside it and lists the positions it is told to flush.  An
advance that flushes is taken apart: the inner source advances only, and the flush that follows is
the recorder's own, so that it is listed like any other.
-/

namespace StyleLex

/-- **A source with the list of its flushes**, the first one first. -/
structure Recorder (σ : Type) where
  inner : σ
  flushes : List Nat
  deriving DecidableEq, Repr

namespace Recorder

variable {σ : Type}

/-- A source whose flushes are recorded from now on. -/
def around (s : σ) : Recorder σ := ⟨s, []⟩

instance [Reader σ] : Reader (Recorder σ) where
  ahead r := Reader.ahead r.inner
  tell r := Reader.tell r.inner

variable {m : Type → Type} [Monad m] [Reader σ] [Source m σ]

/-- List the position and flush the inner source. -/
def flush (r : Recorder σ) (p : Nat) : m (Recorder σ) := do
  return ⟨← Source.flush r.inner p, r.flushes ++ [p]⟩

/-- Advance the inner source, and then flush if `flushing`. -/
def advance (r : Recorder σ) (n : Nat) (flushing : Bool) : m (Recorder σ) := do
  let r' : Recorder σ := { r with inner := ← Source.advance r.inner n false }
  if flushing then r'.flush (Reader.tell r') else pure r'

/-- Going back does not take flushes off the list. -/
instance : Source m (Recorder σ) where
  slice r start stop := Source.slice r.inner start stop
  advance := advance
  flush := flush
  rewind r := do return { r with inner := ← Source.rewind r.inner }

end Recorder

end StyleLex
