import StyleLex.Reading

/-!
# Token/Payload — the decoded value of a token

Some tokens carry more than their text: the digits of a number, the inside of a string or comment.
`Payload τ` holds such a value.  Its pieces of text have the type `τ`: they are strings in a token,
and while the token is still being measured they are the places of those strings (`Span`).
-/

namespace StyleLex

/-- **A decoded value**, with pieces of text of type `τ`. -/
inductive Payload (τ : Type) where
  | none
  /-- What is read of a number or percentage. -/
  | number (value : Reading)
  /-- What is read of a dimension, and its unit. -/
  | dimension (value : Reading) (unit : τ)
  /-- A string without quotes, a comment without markers or the name of a variable. -/
  | text (value : τ)
  /-- A resource, and `url` or `uri` as written. -/
  | uri (scheme value : τ)
  deriving DecidableEq, Repr

namespace Payload

variable {α β : Type}

/-- Transform the pieces of text. -/
def map (f : α → β) : Payload α → Payload β
  | none => none
  | number value => number value
  | dimension value unit => dimension value (f unit)
  | text value => text (f value)
  | uri scheme value => uri (f scheme) (f value)

/-- Transform the pieces of text from left to right by a computation. -/
def mapM {m : Type → Type} [Monad m] (f : α → m β) : Payload α → m (Payload β)
  | none => pure none
  | number value => pure (number value)
  | dimension value unit => return dimension value (← f unit)
  | text value => return text (← f value)
  | uri scheme value => return uri (← f scheme) (← f value)

end Payload

/-- **A place in a token**, counted in characters from the beginning of the token. -/
structure Span where
  start : Nat
  stop : Nat
  deriving DecidableEq, Repr

namespace Span

/-- The same place, counted from `n` characters earlier. -/
def shift (n : Nat) (s : Span) : Span := ⟨n + s.start, n + s.stop⟩

end Span

end StyleLex
