import StyleLex.Source.Scanner
import StyleLex.Tokenizer

/-!
# Tokenizer/Stepwise — lexing call by call

`Tokenizer.next?` measures a token by all that lies ahead, and consumes it at once.  A program looks
at one place after another, consumes a few characters at a time, counting each of them, and cuts
pieces out in between.  `lexNext?` is the lexer that makes these calls, each where the program makes
it: it looks with a `Scanner`, consumes and cuts with a `Source`, and counts as its computations
count.  What it relies on is seen in the calls: a source that refuses one of them stops it.

There is one production for each beginning of a token.  It is given the position and the location
at which the token starts, and gives the token and the tokenizer after it.  A production with a `?`
may find nothing, and then nothing is consumed.  The exception are the marks `~` and `|`, whose `=`
is consumed first, and the token is then left to the operator (`lexAttempt`).

A loop goes on while characters are left, so it takes as many rounds as characters are ahead and one
to see the end; its `rounds` are never used up.
-/

namespace StyleLex

open Chars

/-- The token with its positions moved by an offset, as far as the largest position. -/
def Token.shifted (token : Token) (offset : Nat) : Token :=
  { token with
    start := shiftPosition offset token.start
    stop := shiftPosition offset token.stop }

namespace Tokenizer

variable {m : Type → Type} {σ : Type} [Monad m] [Counting m] [Reader σ] [Source m σ] [Scanner m σ]

/-! ## Single calls -/

/-- The character at a distance from the next one, or the end. -/
def look (t : Tokenizer σ) (offset : Nat) : m (Option Char) := Scanner.look t.source offset

/-- Whether exactly these characters stand from an offset on. -/
def looksAt (t : Tokenizer σ) : (offset : Nat) → (expected : List Char) → m Bool
  | _, [] => return true
  | offset, c :: cs => do
    if (← t.look offset) = some c then t.looksAt (offset + 1) cs else return false

/-- Count the `n` characters from an offset on, one after the other. -/
def countFrom (source : σ) : (tracker : Tracker) → (offset n : Nat) → m Tracker
  | tracker, _, 0 => return tracker
  | tracker, offset, n + 1 => do
    let tracker ← tracker.stepM (← Scanner.look source offset) (← Scanner.look source (offset + 1))
    countFrom source tracker (offset + 1) n

/-- Count the next `n` characters and consume them. -/
def consume (t : Tokenizer σ) (n : Nat) (flushing : Bool) : m (Tokenizer σ) := do
  let tracker ← countFrom t.source t.tracker 0 n
  let source ← Source.advance t.source n flushing
  return { t with source, tracker }

/-- Consume the next character. -/
def consumeOne (t : Tokenizer σ) : m (Tokenizer σ) := t.consume 1 false

/-- Consume the next `n` characters if `wanted`. -/
def consumeIf (t : Tokenizer σ) (wanted : Bool) (n : Nat) : m (Tokenizer σ) :=
  if wanted then t.consume n false else pure t

/-- The piece from a position up to the next character. -/
def sliceFrom (t : Tokenizer σ) (start : Nat) : m String :=
  Source.slice t.source start (Reader.tell t.source)

/-- The token from `start` up to the next character, its text cut out. -/
def cutFrom (t : Tokenizer σ) (kind : Kind) (start : Nat) (loc : Location)
    (payload : Payload String := .none) : m Token := do
  let stop := Reader.tell t.source
  let text ← Source.slice t.source start stop
  return { kind, start, stop, text, location := loc, payload }

/-- Flush a token that is complete. -/
def flushed (t : Tokenizer σ) (token : Token) : m (Token × Tokenizer σ) := do
  let source ← Source.flush t.source token.stop
  return (token, { t with source })

/-- Give the token that ends before the next character. -/
def give (t : Tokenizer σ) (kind : Kind) (start : Nat) (loc : Location)
    (payload : Payload String := .none) : m (Token × Tokenizer σ) := do
  let token ← t.cutFrom kind start loc payload
  return (token, t)

/-- Give the token that ends before the next character, and flush it. -/
def giveFlushed (t : Tokenizer σ) (kind : Kind) (start : Nat) (loc : Location)
    (payload : Payload String := .none) : m (Token × Tokenizer σ) := do
  let token ← t.cutFrom kind start loc payload
  t.flushed token

/-- Consume the next `n` characters and give the token that they end. -/
def lexAhead (t : Tokenizer σ) (kind : Kind) (n : Nat) (flushing : Bool) (start : Nat)
    (loc : Location) (payload : Payload String := .none) : m (Token × Tokenizer σ) := do
  let t ← t.consume n flushing
  t.give kind start loc payload

/-! ## Loops -/

/-- The rounds that are enough for a loop. -/
def rounds (t : Tokenizer σ) : Nat := (Reader.ahead t.source).length + 1

/-- Consume characters with a property, and give them. -/
def consumeWhileFrom (p : Char → Bool) :
    (rounds : Nat) → Tokenizer σ → m (List Char × Tokenizer σ)
  | 0, t => return ([], t)
  | rounds + 1, t => do
    match ← t.look 0 with
    | none => return ([], t)
    | some c =>
      if p c then
        let t ← t.consumeOne
        let (cs, t) ← consumeWhileFrom p rounds t
        return (c :: cs, t)
      else
        return ([], t)

/-- Consume the run of characters with a property, and give it. -/
def consumeWhile (t : Tokenizer σ) (p : Char → Bool) : m (List Char × Tokenizer σ) :=
  consumeWhileFrom p t.rounds t

/-- Consume the run of white space. -/
def consumeWhitespace (t : Tokenizer σ) : m (Tokenizer σ) := do
  let n ← Scanner.count t.source .whitespace 0
  t.consume n false

/-- Whether a `*/` stands ahead, `c` being the next character. -/
def closesComment (t : Tokenizer σ) (c : Char) : m Bool := do
  if c = '*' then return (← t.look 1) = some '/' else return false

/-- Consume the inside of a block comment, and tell whether its `*/` follows. -/
def consumeCommentFrom : (rounds : Nat) → Tokenizer σ → m (Bool × Tokenizer σ)
  | 0, t => return (false, t)
  | rounds + 1, t => do
    match ← t.look 0 with
    | none => return (false, t)
    | some c =>
      if ← t.closesComment c then
        return (true, t)
      else
        let t ← t.consumeOne
        consumeCommentFrom rounds t

/-- How many characters of the inside of a string belong together, `c` being the next character: a
backslash and what it escapes, if anything follows. -/
def insideSize (t : Tokenizer σ) (c : Char) : m Nat := do
  if c = '\\' then return if ← Scanner.hasMore t.source 1 then 2 else 1 else return 1

/-- Consume the inside of a string and the quote that closes it, and give the position after the
inside. -/
def consumeQuotedFrom (q : Char) : (rounds : Nat) → Tokenizer σ → m (Nat × Tokenizer σ)
  | 0, t => return (Reader.tell t.source, t)
  | rounds + 1, t => do
    match ← t.look 0 with
    | none => return (Reader.tell t.source, t)
    | some c =>
      if c = q then
        let stop := Reader.tell t.source
        let t ← t.consumeOne
        return (stop, t)
      else if isLineEnd c then
        return (Reader.tell t.source, t)
      else
        let n ← t.insideSize c
        let t ← t.consume n false
        consumeQuotedFrom q rounds t

/-- Consume a string behind its quote `q`, and give what is inside. -/
def consumeQuoted (t : Tokenizer σ) (q : Char) : m (String × Tokenizer σ) := do
  let start := Reader.tell t.source
  let (stop, t) ← consumeQuotedFrom q t.rounds t
  let value ← Source.slice t.source start stop
  return (value, t)

/-! ## Comments -/

/-- A line comment. -/
def lexLineComment (t : Tokenizer σ) (start : Nat) (loc : Location) :
    m (Token × Tokenizer σ) := do
  let t ← t.consume 2 false
  let valueStart := Reader.tell t.source
  let (_, t) ← t.consumeWhile fun c => !isLineEnd c
  let value ← t.sliceFrom valueStart
  t.give .comment start loc (.text value)

/-- The first half of a comment that is split, or of one that is not closed. -/
def cutHalf (t : Tokenizer σ) (closed : Bool) (value : String) (start : Nat) (loc : Location) :
    m (Token × Tokenizer σ) := do
  let t := { t with closing := closed }
  t.give .comment start loc (.text value)

/-- A comment in one token, its `*/` consumed if it is closed. -/
def cutWhole (t : Tokenizer σ) (closed : Bool) (value : String) (start : Nat) (loc : Location) :
    m (Token × Tokenizer σ) := do
  let t ← t.consumeIf closed 2
  t.giveFlushed .comment start loc (.text value)

/-- A block comment, or the first half of one that is split. -/
def lexBlockComment (t : Tokenizer σ) (start : Nat) (loc : Location) :
    m (Token × Tokenizer σ) := do
  let t ← t.consume 2 false
  let valueStart := Reader.tell t.source
  let (closed, t) ← consumeCommentFrom t.rounds t
  let value ← t.sliceFrom valueStart
  if t.config.options.commentMarkers then
    t.cutHalf closed value start loc
  else
    t.cutWhole closed value start loc

/-- A comment, if a second mark follows the first. -/
def lexComment? (t : Tokenizer σ) (start : Nat) (loc : Location) :
    m (Option (Token × Tokenizer σ)) := do
  match ← t.look 1 with
  | some '/' => some <$> t.lexLineComment start loc
  | some '*' => some <$> t.lexBlockComment start loc
  | _ => return none

/-- The `*/` of a comment that is split. -/
def lexCommentClose (t : Tokenizer σ) (start : Nat) (loc : Location) :
    m (Token × Tokenizer σ) := do
  let t ← t.consume 2 false
  t.giveFlushed .comment start loc

/-! ## Numbers -/

/-- Consume a numeral, and give its digits. -/
def consumeNumeral (t : Tokenizer σ) : m (Numeral × Tokenizer σ) := do
  let (whole, t) ← t.consumeWhile isDigit
  if (← t.look 0) = some '.' then
    let t ← t.consumeOne
    let (places, t) ← t.consumeWhile isDigit
    return (⟨whole, some places⟩, t)
  else
    return (⟨whole, none⟩, t)

/-- A dimension of which all but the unit is consumed. -/
def lexDimension (t : Tokenizer σ) (value : Reading) (start : Nat) (loc : Location) :
    m (Token × Tokenizer σ) := do
  let unitStart := Reader.tell t.source
  let (_, t) ← t.consumeWhile isLetter
  let token ← t.cutFrom .dimension start loc
  let unit ← Source.slice t.source unitStart token.stop
  t.flushed { token with payload := .dimension value unit }

/-- A number, percentage or dimension, whose sign is consumed if it is negative. -/
def lexNumeric (t : Tokenizer σ) (negative : Bool) (start : Nat) (loc : Location) :
    m (Token × Tokenizer σ) := do
  let (numeral, t) ← t.consumeNumeral
  let value := numeral.value negative
  let next ← t.look 0
  if next = some '%' then
    let t ← t.consumeOne
    t.giveFlushed .percentage start loc (.number value)
  else if next.any isLetter then
    t.lexDimension value start loc
  else
    t.giveFlushed .number start loc (.number value)

/-! ## Names -/

/-- A mark and what is counted behind it, unless there is none. -/
def lexMarked? (t : Tokenizer σ) (kind : Kind) (construct : Construct) (start : Nat)
    (loc : Location) : m (Option (Token × Tokenizer σ)) := do
  let n ← Scanner.count t.source construct 1
  if n = 0 then return none else some <$> t.lexAhead kind (1 + n) true start loc

/-- The marker `-->`, a negative number or an identifier that begins with `-`. -/
def lexMinus? (t : Tokenizer σ) (start : Nat) (loc : Location) :
    m (Option (Token × Tokenizer σ)) := do
  if ← t.looksAt 1 ['-', '>'] then
    some <$> t.lexAhead .cdataClose 3 true start loc
  else if (← t.look 1).any isDigit then
    let t ← t.consumeOne
    some <$> t.lexNumeric true start loc
  else
    t.lexMarked? .identifier .name start loc

/-- The marker `<!--`. -/
def lexCdataOpen? (t : Tokenizer σ) (start : Nat) (loc : Location) :
    m (Option (Token × Tokenizer σ)) := do
  if ← t.looksAt 1 ['!', '-', '-'] then
    some <$> t.lexAhead .cdataOpen 4 true start loc
  else
    return none

/-- The digits of the end of a range of code points, behind a `-`. -/
def countRangeEnd (t : Tokenizer σ) : m Nat := do
  if (← t.look 0) = some '-' then Scanner.count t.source .hexDigits 1 else return 0

/-- A range of code points behind `u+`. -/
def lexUnicodeRange? (t : Tokenizer σ) (start : Nat) (loc : Location) :
    m (Option (Token × Tokenizer σ)) := do
  let first ← Scanner.count t.source .hexDigits 2
  if first = 0 then
    return none
  else
    let t ← t.consume (2 + first) false
    let last ← t.countRangeEnd
    let t ← t.consumeIf (last != 0) (1 + last)
    some <$> t.giveFlushed .unicodeRange start loc

/-- The value of a resource, quoted or not. -/
def consumeResource (t : Tokenizer σ) : m (String × Tokenizer σ) := do
  match (← t.look 0).filter isQuote with
  | some q =>
    let t ← t.consumeOne
    t.consumeQuoted q
  | none =>
    let start := Reader.tell t.source
    let (_, t) ← t.consumeWhile fun c => !isWhitespace c && c != ')'
    let value ← t.sliceFrom start
    return (value, t)

/-- A resource whose scheme and parenthesis are consumed. -/
def lexUri (t : Tokenizer σ) (scheme : String) (start : Nat) (loc : Location) :
    m (Token × Tokenizer σ) := do
  let t ← t.consumeWhitespace
  let (value, t) ← t.consumeResource
  let t ← t.consumeWhitespace
  let next ← t.look 0
  let t ← t.consumeIf (next == some ')') 1
  t.give .uri start loc (.uri scheme value)

/-- An identifier, function or resource. -/
def lexNamed (t : Tokenizer σ) (start : Nat) (loc : Location) : m (Token × Tokenizer σ) := do
  let n ← Scanner.count t.source .name 0
  let name ← Source.slice t.source start (start + n)
  if (← t.look n) = some '(' then
    let t ← t.consume (n + 1) false
    if Lexeme.isScheme name.toList then
      t.lexUri name start loc
    else
      t.give .function start loc
  else
    t.lexAhead .identifier n true start loc

/-- A range of code points, if it begins with `u+`. -/
def lexRange? (t : Tokenizer σ) (start : Nat) (loc : Location) :
    m (Option (Token × Tokenizer σ)) := do
  if ← t.looksAt 0 ['u', '+'] then t.lexUnicodeRange? start loc else return none

/-- What begins with a character that can begin a name. -/
def lexWord (t : Tokenizer σ) (start : Nat) (loc : Location) : m (Token × Tokenizer σ) := do
  match ← t.lexRange? start loc with
  | some given => return given
  | none => t.lexNamed start loc

/-! ## Strings and variables -/

/-- A string with the quote `q`. -/
def lexString (t : Tokenizer σ) (q : Char) (start : Nat) (loc : Location) :
    m (Token × Tokenizer σ) := do
  let t ← t.consumeOne
  let (value, t) ← t.consumeQuoted q
  t.give .string start loc (.text value)

/-- How many characters a variable has, and the place of its name in it. -/
def measureVariable? (t : Tokenizer σ) : m (Option (Nat × Span)) := do
  match ← t.look 1 with
  | some c =>
    if c = '{' then
      let n ← Scanner.run t.source (· != '}') 2
      match ← t.look (2 + n) with
      | some _ => return some (2 + n + 1, ⟨2, 2 + n⟩)
      | none => return some (2 + n, ⟨2, 2 + n⟩)
    else if isLetter c then
      let n ← Scanner.run t.source isLetter 2
      return some (2 + n, ⟨1, 2 + n⟩)
    else
      return none
  | none => return none

/-- A variable. -/
def lexVariable? (t : Tokenizer σ) (start : Nat) (loc : Location) :
    m (Option (Token × Tokenizer σ)) := do
  match ← t.measureVariable? with
  | none => return none
  | some (n, name) =>
    let value ← Source.slice t.source (start + name.start) (start + name.stop)
    some <$> t.lexAhead .variableName n true start loc (.text value)

/-! ## The next token -/

/-- Consume the first of the two characters of `~=` and `|=`, if the second follows. -/
def consumeMark (t : Tokenizer σ) : m (Tokenizer σ) := do
  if (← t.look 1) = some '=' then t.consumeOne else return t

/-- What an attempt gives: a token, or nothing and the tokenizer as it was. -/
def orElse (t : Tokenizer σ) : Option (Token × Tokenizer σ) → Option Token × Tokenizer σ
  | some (token, t') => (some token, t')
  | none => (none, t)

/-- What a mark begins, unless it stands for itself. -/
def lexMark (t : Tokenizer σ) (mark : Char) (start : Nat) (loc : Location) :
    m (Option Token × Tokenizer σ) :=
  match mark with
  | '~' | '|' => (none, ·) <$> t.consumeMark
  | '/' => t.orElse <$> t.lexComment? start loc
  | '@' => t.orElse <$> t.lexMarked? .atIdentifier .identifier start loc
  | '#' => t.orElse <$> t.lexMarked? .hashName .name start loc
  | '<' => t.orElse <$> t.lexCdataOpen? start loc
  | '-' => t.orElse <$> t.lexMinus? start loc
  | '$' => t.orElse <$> t.lexVariable? start loc
  | _ => pure (none, t)

/-- White space. -/
def lexWhitespace (t : Tokenizer σ) (start : Nat) (loc : Location) : m (Token × Tokenizer σ) := do
  let n ← Scanner.count t.source .whitespace 0
  t.lexAhead .whitespace n true start loc

/-- **What the character `c` begins**, unless it stands for itself. -/
def lexAttempt (t : Tokenizer σ) (c : Char) (start : Nat) (loc : Location) :
    m (Option Token × Tokenizer σ) :=
  let found (given : Token × Tokenizer σ) : Option Token × Tokenizer σ := (some given.1, given.2)
  if isWhitespace c then found <$> t.lexWhitespace start loc
  else if isDigit c then found <$> t.lexNumeric false start loc
  else if isDelimiter c then found <$> t.lexAhead .delimiter 1 false start loc
  else if isNameStart c then found <$> t.lexWord start loc
  else if isQuote c then found <$> t.lexString c start loc
  else t.lexMark c start loc

/-- **The token that the character `c` begins**: an operator if it begins nothing else. -/
def lexLeading (t : Tokenizer σ) (c : Char) (start : Nat) (loc : Location) :
    m (Token × Tokenizer σ) := do
  match ← t.lexAttempt c start loc with
  | (some token, t) => return (token, t)
  | (none, t) => t.lexAhead .operator 1 false start loc

/-- **The token that comes next**, `c` being the next character: the `*/` that waits, or what `c`
begins. -/
def lexPending (t : Tokenizer σ) (c : Char) (start : Nat) (loc : Location) :
    m (Token × Tokenizer σ) :=
  if t.closing then lexCommentClose { t with closing := false } start loc
  else t.lexLeading c start loc

/-- **The next token** and the tokenizer after it, or neither at the end. -/
def lexNext? (t : Tokenizer σ) : m (Option (Token × Tokenizer σ)) := do
  match ← t.look 0 with
  | none => return none
  | some c =>
    let start := Reader.tell t.source
    let loc ← t.tracker.currentM
    let (token, t') ← t.lexPending c start loc
    return some (token.shifted t.config.positionOffset, t')

/-- The next tokens, `n` of them unless the end comes before. -/
def lexTake : (n : Nat) → Tokenizer σ → m (List Token × Tokenizer σ)
  | 0, t => return ([], t)
  | n + 1, t => do
    match ← t.lexNext? with
    | none => return ([], t)
    | some (token, t) =>
      let (tokens, t) ← lexTake n t
      return (token :: tokens, t)

/-- The next tokens without the tokenizer after them. -/
def lexTokens (t : Tokenizer σ) (n : Nat) : m (List Token) := Prod.fst <$> t.lexTake n

/-- Go back to the beginning of the source. -/
def lexReset (t : Tokenizer σ) : m (Tokenizer σ) := do
  let source ← Source.rewind t.source
  return { t with source, tracker := t.tracker.reset, closing := false }

/-- A lexer, in machine words, for the window of a text that the configuration names. -/
def inWords? (text : List Char) (config : Config) : Except RangeError (Tokenizer Checked) :=
  let stop := config.stop.getD text.length
  if config.start ≤ stop ∧ stop ≤ text.length then
    .ok (ofSource (.atStart text config.start stop) config)
  else
    .error ⟨config.start, stop, text.length⟩

end Tokenizer

end StyleLex
