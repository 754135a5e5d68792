import StyleLex.Lexeme.Scan
import StyleLex.Source.Cursor
import StyleLex.Token.Basic

/-!
# Tokenizer — from characters to tokens

A `Tokenizer` measures the next token by looking ahead in its source and then cuts it out
(`cut`): the pieces of the payload first, then the characters are consumed, then the text of the
token.  A token with `Release.consuming` is flushed before that last step, so a source has to
keep the characters of the last token even when they are flushed.

Any `Source` will do, and the acts on it are computations in any `m`, so that the same lexer reads a
plain text, a text whose flushes are recorded or a source that can fail.

`next?` gives a token and the tokenizer after it.  At the end there is neither, so asking again
changes nothing.  Since every token has at least one character, there are at most as many tokens as
characters, and `rest` asks for that many.

The characters of a token are consumed at once.  A lexer that looks at them, counts and consumes
them call by call is `lexNext?`, and it gives the same tokens.
-/

namespace StyleLex

/-- **A lexer at work on a source.** -/
structure Tokenizer (σ : Type) where
  source : σ
  config : Config
  /-- The line and column of the next character. -/
  tracker : Tracker
  /-- Whether the `*/` of a comment is the next token. -/
  closing : Bool
  deriving DecidableEq, Repr

namespace Tokenizer

variable {σ : Type}

/-- A lexer for the rest of a source, wherever that is in its text.  The configuration gives the
location of the next character. -/
def ofSource (s : σ) (config : Config) : Tokenizer σ where
  source := s
  config := config
  tracker := .startingAt config.location
  closing := false

/-- A lexer for a text. -/
def ofText (text : List Char) : Tokenizer Cursor := ofSource (Cursor.ofText text) {}

/-- A lexer for the window of a text that the configuration names. -/
def ofConfig? (text : List Char) (config : Config) : Except RangeError (Tokenizer Cursor) := do
  let w ← Window.of? text config.start config.stop
  return ofSource (Cursor.atStart w) config

/-- The location of the next character. -/
def location (t : Tokenizer σ) : Location := t.tracker.current

/-- A position in the source, with the offset of the configuration. -/
def shift (t : Tokenizer σ) (p : Nat) : Nat := shiftPosition t.config.positionOffset p

variable [Reader σ]

/-- The position of the next character, with the offset of the configuration. -/
def tell (t : Tokenizer σ) : Nat := t.shift (Reader.tell t.source)

/-- The measure of the next token. -/
def lexeme? (t : Tokenizer σ) : Option Lexeme :=
  Lexeme.next? t.config.options t.closing (Reader.ahead t.source)

variable {m : Type → Type} [Monad m] [Journal m] [Source m σ]

/-- Report that a lexer starts, and hand it over. -/
def announce (t : Tokenizer σ) : m (Tokenizer σ) := do
  Journal.note (.created (Reader.tell t.source) t.config.options)
  return t

/-- **Cut a measured token** out of the source, in one step.  What a program does in between, call
by call, is `lexNext?`. -/
def cut (t : Tokenizer σ) (lx : Lexeme) : m (Token × Tokenizer σ) := do
  let start := Reader.tell t.source
  let payload ← lx.payload.mapM fun span =>
    Source.slice t.source (start + span.start) (start + span.stop)
  let source ← Source.advance t.source lx.length (lx.release == .consuming)
  let stop := Reader.tell source
  let text ← Source.slice source start stop
  let source ← Source.flushIf (lx.release == .complete) source stop
  let token : Token :=
    { kind := lx.kind
      start := t.shift start
      stop := t.shift stop
      text
      location := t.location
      payload }
  Journal.note (.produced token.kind token.start token.stop)
  let after : Tokenizer σ :=
    { t with
      source
      tracker := t.tracker.advance lx.length (Reader.ahead t.source)
      closing := lx.opensComment }
  return (token, after)

/-- **The next token** and the tokenizer after it, or neither at the end. -/
def next? (t : Tokenizer σ) : m (Option (Token × Tokenizer σ)) :=
  match t.lexeme? with
  | none => pure none
  | some lx => some <$> t.cut lx

/-- The next tokens, `n` of them unless the end comes before. -/
def take : (n : Nat) → Tokenizer σ → m (List Token × Tokenizer σ)
  | 0, t => pure ([], t)
  | n + 1, t => do
    match ← t.next? with
    | none => return ([], t)
    | some (token, t) =>
      let (tokens, t) ← take n t
      return (token :: tokens, t)

/-- All the tokens that are left. -/
def rest (t : Tokenizer σ) : m (List Token × Tokenizer σ) :=
  t.take (Reader.ahead t.source).length

/-- Go back to the beginning of the source. -/
def reset (t : Tokenizer σ) : m (Tokenizer σ) := do
  Journal.note .reset
  let source ← Source.rewind t.source
  return { t with source, tracker := t.tracker.reset, closing := false }

/-- The tokens that are left, in a plain computation. -/
def tokens [Source Id σ] (t : Tokenizer σ) : List Token := (Id.run t.rest).1

end Tokenizer

/-- **The tokens of a text.** -/
def tokenize (text : String) : List Token := (Tokenizer.ofText text.toList).tokens

end StyleLex
