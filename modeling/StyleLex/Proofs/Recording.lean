import StyleLex.Proofs.Run
import StyleLex.Source.Recorder

/-!
# Proofs/Recording — lexing from a source that lists its flushes

A recorder takes an advance that flushes apart, into an advance and a flush of its own.  A lexer
does not notice: around a cursor it gives the tokens of the cursor and leaves the states of the
cursor (`run_next?_recorded`).  What is listed for a token is its end, or nothing if the token is
not flushed; whether it is flushed while it is consumed or when it is complete does not show.
-/

namespace StyleLex

namespace Tokenizer

/-- The same tokenizer, its source being a recorder that has listed `flushes` so far. -/
def recorded (t : Tokenizer Cursor) (flushes : List Nat) : Tokenizer (Recorder Cursor) where
  source := ⟨t.source, flushes⟩
  config := t.config
  tracker := t.tracker
  closing := t.closing

/-- What is flushed with a measured token. -/
def flushesWith (t : Tokenizer Cursor) (lx : Lexeme) : List Nat :=
  if lx.release = .never then [] else [(t.source.skip lx.length).position]

/-- **Cutting a token out of a recorder.** -/
theorem run_cut_recorded (t : Tokenizer Cursor) (flushes : List Nat) (lx : Lexeme) :
    Id.run ((t.recorded flushes).cut lx) =
      (t.token lx, (t.after lx).recorded (flushes ++ t.flushesWith lx)) := by
  obtain ⟨kind, n, payload, release, opensComment⟩ := lx
  cases release with
  | never =>
    rw [flushesWith, if_pos rfl, List.append_nil]
    cases payload <;> rfl
  | consuming | complete => cases payload <;> rfl

/-- **A recorder changes nothing**: token and state are those of the cursor inside it. -/
theorem run_next?_recorded (t : Tokenizer Cursor) (flushes : List Nat) :
    Id.run (t.recorded flushes).next? =
      t.lexeme?.map fun lx =>
        (t.token lx, (t.after lx).recorded (flushes ++ t.flushesWith lx)) := by
  have hlexeme : (t.recorded flushes).lexeme? = t.lexeme? := rfl
  rw [next?, hlexeme]
  cases t.lexeme? with
  | none => rfl
  | some lx => exact congrArg some (run_cut_recorded t flushes lx)

end Tokenizer

end StyleLex
