import StyleLex.Proofs.Place

/-!
# Proofs/Reset — going back to the beginning

A reset forgets everything that happened before it: the tokenizer is the one that is made anew for
the same window and configuration (`reset_restores`).

What a call never changes is the window, the configuration and the location that lines and columns
are counted from.  `MadeFor w config` says that these are the ones the tokenizer was made for.  It
holds of a tokenizer made anywhere in the window, and every call keeps it (`MadeFor.call`), so it
holds after any calls (`MadeFor.afterCalls`).  A reset sets all the rest (`MadeFor.run_reset`).
-/

namespace StyleLex

namespace Tokenizer

/-! ## Calls -/

/-- **What can be asked of a tokenizer.** -/
inductive Call where
  /-- To give the next token. -/
  | next
  /-- To go back to the beginning. -/
  | reset
  deriving DecidableEq, Repr

/-- The token that a call gives, if it gives one, and the tokenizer after it. -/
def call (t : Tokenizer Cursor) : Call → Option Token × Tokenizer Cursor
  | .next =>
    match Id.run t.next? with
    | none => (none, t)
    | some (token, t') => (some token, t')
  | .reset => (none, Id.run t.reset)

/-- The tokenizer after some calls, the first one first. -/
def afterCalls (t : Tokenizer Cursor) (calls : List Call) : Tokenizer Cursor :=
  calls.foldl (fun t c => (t.call c).2) t

/-- The token that is given if it is asked for after some calls. -/
def tokenAfter (t : Tokenizer Cursor) (calls : List Call) : Option Token :=
  ((t.afterCalls calls).call .next).1

theorem call_next_of_none {t : Tokenizer Cursor} (h : t.lexeme? = none) :
    t.call .next = (none, t) := by
  have hnext : Id.run t.next? = none := next?_eq_none_iff.mpr (lexeme?_eq_none_iff.mp h)
  rw [call, hnext]

theorem call_next_of_some {t : Tokenizer Cursor} {lx : Lexeme} (h : t.lexeme? = some lx) :
    t.call .next = (some (t.token lx), t.after lx) := by
  have hnext : Id.run t.next? = some (t.token lx, t.after lx) :=
    next?_eq_some_iff.mpr ⟨lx, h, rfl, rfl⟩
  rw [call, hnext]

/-- **What a call keeps**: what holds of the tokenizer, and then behind its next token and after a
reset, holds after any call. -/
theorem call_keeps {P : Tokenizer Cursor → Prop} {t : Tokenizer Cursor} (ht : P t)
    (after : ∀ lx, t.lexeme? = some lx → P (t.after lx)) (reset : P (Id.run t.reset)) (c : Call) :
    P (t.call c).2 := by
  cases c with
  | next =>
    cases hlx : t.lexeme? with
    | none =>
      rw [call_next_of_none hlx]
      exact ht
    | some lx =>
      rw [call_next_of_some hlx]
      exact after lx hlx
  | reset => exact reset

theorem afterCalls_append (t : Tokenizer Cursor) (calls more : List Call) :
    t.afterCalls (calls ++ more) = (t.afterCalls calls).afterCalls more := List.foldl_append

/-- **Asking for the next token again and again** gives one token after the other, and then none. -/
theorem tokenAfter_replicate (t : Tokenizer Cursor) (i : Nat) :
    t.tokenAfter (List.replicate i .next) = t.tokens[i]? := by
  induction i generalizing t with
  | zero =>
    cases hlx : t.lexeme? with
    | none =>
      rw [tokens_of_none hlx]
      exact congrArg Prod.fst (call_next_of_none hlx)
    | some lx =>
      rw [tokens_of_some hlx]
      exact congrArg Prod.fst (call_next_of_some hlx)
  | succ i ih =>
    change (t.call .next).2.tokenAfter (List.replicate i .next) = _
    rw [ih]
    cases hlx : t.lexeme? with
    | none => rw [call_next_of_none hlx, tokens_of_none hlx, List.getElem?_nil, List.getElem?_nil]
    | some lx => rw [call_next_of_some hlx, tokens_of_some hlx, List.getElem?_cons_succ]

/-! ## What no call changes -/

/-- **A tokenizer made for a window and a configuration**, wherever it has got to. -/
structure MadeFor (w : Window) (config : Config) (t : Tokenizer Cursor) : Prop where
  window_eq : t.source.window = w
  config_eq : t.config = config
  origin_eq : t.tracker.origin = config.location

theorem madeFor_ofSource (c : Cursor) (config : Config) :
    MadeFor c.window config (ofSource c config) := ⟨rfl, rfl, rfl⟩

namespace MadeFor

variable {w : Window} {config : Config} {t : Tokenizer Cursor}

theorem after (h : MadeFor w config t) (lx : Lexeme) : MadeFor w config (t.after lx) where
  window_eq := (window_after t lx).trans h.window_eq
  config_eq := h.config_eq
  origin_eq := by
    rw [Tokenizer.after, Tracker.advance_eq]
    exact h.origin_eq

/-- **A reset makes the tokenizer anew.** -/
theorem run_reset (h : MadeFor w config t) :
    Id.run t.reset = ofSource (Cursor.atStart w) config := by
  change Tokenizer.mk (Cursor.atStart t.source.window) t.config (.startingAt t.tracker.origin)
    false = _
  rw [h.window_eq, h.config_eq, h.origin_eq]
  rfl

/-- **Every call keeps what the tokenizer was made for.** -/
theorem call (h : MadeFor w config t) (c : Call) : MadeFor w config (t.call c).2 := by
  refine call_keeps h (fun lx _ => h.after lx) ?_ c
  rw [h.run_reset]
  exact madeFor_ofSource (Cursor.atStart w) config

theorem afterCalls (h : MadeFor w config t) (calls : List Call) :
    MadeFor w config (t.afterCalls calls) := by
  induction calls generalizing t with
  | nil => exact h
  | cons c calls ih => exact ih (h.call c)

end MadeFor

theorem afterCalls_reset (c : Cursor) (config : Config) (calls : List Call) :
    (ofSource c config).afterCalls (calls ++ [.reset]) =
      ofSource (Cursor.atStart c.window) config := by
  rw [afterCalls_append]
  exact ((madeFor_ofSource c config).afterCalls calls).run_reset

/-- The tokens after a reset are those of a tokenizer made anew, whatever was called before it. -/
theorem tokenAfter_reset (c : Cursor) (config : Config) (calls : List Call) (i : Nat) :
    (ofSource c config).tokenAfter (calls ++ .reset :: List.replicate i .next) =
      (ofSource (Cursor.atStart c.window) config).tokens[i]? := by
  rw [List.append_cons, tokenAfter, afterCalls_append, afterCalls_reset]
  exact tokenAfter_replicate _ i

/-- **A reset restores the beginning.**  Take a tokenizer that reads any window from anywhere in it,
and any calls on it.  Right after a reset it is the tokenizer made anew at the beginning of the
window, in its position, its committed position, its location and whether a `*/` waits.  So the
token that is asked for after a reset and `i` tokens more is the `i`-th token of the window,
whatever was called before the reset.  If the tokenizer was made for a text, this is the token that
it gave after `i` others the first time. -/
theorem reset_restores (calls : List Call) :
    (∀ (c : Cursor) (config : Config),
      (ofSource c config).afterCalls (calls ++ [.reset]) =
        ofSource (Cursor.atStart c.window) config ∧
      ∀ i, (ofSource c config).tokenAfter (calls ++ .reset :: List.replicate i .next) =
        (ofSource (Cursor.atStart c.window) config).tokens[i]?) ∧
    ∀ (text : List Char) (config : Config) (i : Nat),
      ((ofConfig? text config).map fun t =>
        t.tokenAfter (calls ++ .reset :: List.replicate i .next)) =
      (ofConfig? text config).map fun t => t.tokenAfter (List.replicate i .next) := by
  refine ⟨fun c config => ⟨afterCalls_reset c config calls, tokenAfter_reset c config calls⟩,
    fun text config i => ?_⟩
  cases h : ofConfig? text config with
  | error => rfl
  | ok t =>
    obtain ⟨w, rfl⟩ := exists_window_of_ofConfig? h
    have hagain := tokenAfter_reset (Cursor.atStart w) config calls i
    have hfirst := tokenAfter_replicate (ofSource (Cursor.atStart w) config) i
    exact congrArg Except.ok (hagain.trans hfirst.symm)

end Tokenizer

end StyleLex
