/-!
# Token/Kind — the kinds of tokens

`Kind` lists what a piece of a style sheet can be.  `invalid` and `color` are never the outcome of
lexing: `invalid` is for the callers, and `color` is what a hash name or identifier becomes once a
caller knows that it stands for a color.
-/

namespace StyleLex

/-- **What a token is.** -/
inductive Kind where
  /-- No token of the language. -/
  | invalid
  /-- A run of white space. -/
  | whitespace
  /-- A `// line` or `/* block */` comment, or one of the two halves of a split block comment. -/
  | comment
  /-- One of `{ } ( ) [ ] : ; ,`. -/
  | delimiter
  /-- Any other single character, or `~=` or `|=`. -/
  | operator
  /-- The marker `<!--`. -/
  | cdataOpen
  /-- The marker `-->`. -/
  | cdataClose
  /-- A name. -/
  | identifier
  /-- A name after `@`. -/
  | atIdentifier
  /-- A name after `#`. -/
  | hashName
  /-- A name with the parenthesis that opens its arguments. -/
  | function
  /-- A variable, `$name` or `${name}`. -/
  | variableName
  /-- A quoted string. -/
  | string
  /-- A resource, `url(…)` or `uri(…)`. -/
  | uri
  /-- A number without a unit. -/
  | number
  /-- A number with a percent sign. -/
  | percentage
  /-- A number with a unit. -/
  | dimension
  /-- A range of code points, `u+0025-00FF`. -/
  | unicodeRange
  /-- A hash name or identifier that stands for a color. -/
  | color
  deriving DecidableEq, Repr

namespace Kind

/-- Every kind, in the order of their declaration. -/
def all : List Kind :=
  [invalid, whitespace, comment, delimiter, operator, cdataOpen, cdataClose, identifier,
   atIdentifier, hashName, function, variableName, string, uri, number, percentage, dimension,
   unicodeRange, color]

/-- What a kind is called. -/
def label : Kind → String
  | invalid => "invalid"
  | whitespace => "whitespace"
  | comment => "comment"
  | delimiter => "delimiter"
  | operator => "operator"
  | cdataOpen => "cdata-open"
  | cdataClose => "cdata-close"
  | identifier => "identifier"
  | atIdentifier => "@identifier"
  | hashName => "#name"
  | function => "function"
  | variableName => "variable"
  | string => "string"
  | uri => "uri"
  | number => "number"
  | percentage => "percentage"
  | dimension => "dimension"
  | unicodeRange => "unicode-range"
  | color => "color"

instance : ToString Kind := ⟨label⟩

end Kind

end StyleLex
