import StyleLex.Config
import StyleLex.Token.Kind

/-!
# Journal — the record of what a lexer does

A lexer reports its steps as `Entry` values: that it starts, what it produces, which characters it
releases, that it goes back.  `Journal m` says how a computation in `m` takes such a report.  The
plain computations drop it; the computations in `Logged` keep it.
-/

namespace StyleLex

/-- How much a report matters. -/
inductive Level where
  | debug | trace
  deriving DecidableEq, Repr

namespace Level

/-- What a level is called. -/
def label : Level → String
  | debug => "DEBUG"
  | trace => "TRACE"

end Level

/-- **A report of one step.** -/
inductive Entry where
  /-- A lexer starts at a position of its source. -/
  | created (position : Nat) (options : Options)
  /-- A lexer goes back to the beginning of its source. -/
  | reset
  /-- A token between two positions, the offset of the configuration included. -/
  | produced (kind : Kind) (start stop : Nat)
  /-- A source releases the characters before a position. -/
  | flushed (position : Nat)
  deriving DecidableEq, Repr

namespace Entry

/-- Setting up and going back are news, single tokens and releases are details. -/
def level : Entry → Level
  | created .. | reset => .debug
  | produced .. | flushed _ => .trace

/-- The report in words. -/
def message : Entry → String
  | created position options =>
      s!"creating tokenizer at position {position} with options {options.label}"
  | reset => "resetting tokenizer"
  | produced kind start stop => s!"{kind.label} at {start}..{stop}"
  | flushed position => s!"flushing stream up to {position}"

/-- The line of a log. -/
def render (e : Entry) : String := s!"{e.level.label} {e.message}"

end Entry

/-- **A place for reports**: how a computation in `m` takes any number of them. -/
class Journal (m : Type → Type) where
  report : List Entry → m Unit

namespace Journal

/-- Report one step. -/
def note {m : Type → Type} [Journal m] (e : Entry) : m Unit := report [e]

end Journal

/-- A plain computation drops the reports. -/
instance : Journal Id := ⟨fun _ => ()⟩

/-- A computation that can fail drops them too. -/
instance {ε : Type} : Journal (Except ε) := ⟨fun _ => .ok ()⟩

/-- A computation that keeps the reports, the first one first. -/
abbrev Logged := StateM (Array Entry)

instance : Journal Logged := ⟨fun es => modify fun (log : Array Entry) => log ++ es⟩

namespace Logged

/-- The outcome of a computation and its reports. -/
def run {α : Type} (x : Logged α) : α × Array Entry := StateT.run x #[]

end Logged

end StyleLex
