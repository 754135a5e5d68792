import StyleLex.Lexeme.Lemmas
import StyleLex.Tokenizer

/-!
# Tokenizer/Plain — lexing a text, without effects

Over a cursor and in a plain computation, cutting a measured token is a pair of functions: the
token (`token`) and the tokenizer after it (`after`).  `run_cut` and `run_next?` say so, and
`length_ahead_after_lt` that every token leaves fewer characters ahead.  So `rest` comes to the end
of the text (`ahead_rest`).
-/

namespace StyleLex

namespace Tokenizer

/-- The source after a measured token: its characters consumed, and flushed if it flushes at
all. -/
def sourceAfter (t : Tokenizer Cursor) (lx : Lexeme) : Cursor :=
  let c := t.source.skip lx.length
  if lx.release = .never then c else c.commit c.position

/-- The measured token, cut out of the text. -/
def token (t : Tokenizer Cursor) (lx : Lexeme) : Token where
  kind := lx.kind
  start := t.shift t.source.position
  stop := t.shift (t.source.skip lx.length).position
  text := t.source.slice t.source.position (t.source.skip lx.length).position
  location := t.location
  payload := lx.payload.map fun span =>
    t.source.slice (t.source.position + span.start) (t.source.position + span.stop)

/-- The tokenizer after a measured token. -/
def after (t : Tokenizer Cursor) (lx : Lexeme) : Tokenizer Cursor where
  source := t.sourceAfter lx
  config := t.config
  tracker := t.tracker.advance lx.length t.source.ahead
  closing := lx.opensComment

/-- **Cutting is a plain function.** -/
theorem run_cut (t : Tokenizer Cursor) (lx : Lexeme) :
    Id.run (t.cut lx) = (t.token lx, t.after lx) := by
  obtain ⟨kind, n, payload, release, opensComment⟩ := lx
  cases release <;> cases payload <;> rfl

theorem run_next? (t : Tokenizer Cursor) :
    Id.run t.next? = t.lexeme?.map fun lx => (t.token lx, t.after lx) := by
  unfold next?
  cases t.lexeme? with
  | none => rfl
  | some lx => exact congrArg some (run_cut t lx)

@[simp] theorem ahead_sourceAfter (t : Tokenizer Cursor) (lx : Lexeme) :
    (t.sourceAfter lx).ahead = t.source.ahead.drop lx.length := by
  simp only [sourceAfter]
  split <;> simp

/-- **Every token leaves fewer characters ahead.** -/
theorem length_ahead_after_lt {t : Tokenizer Cursor} {lx : Lexeme} (h : t.lexeme? = some lx) :
    (t.after lx).source.ahead.length < t.source.ahead.length := by
  have hpos := Lexeme.length_pos_of_next? h
  have hne : 0 < t.source.ahead.length := by
    cases hcs : t.source.ahead with
    | nil => simp [lexeme?, Reader.ahead, hcs, Lexeme.next?] at h
    | cons => exact Nat.succ_pos _
  rw [after, ahead_sourceAfter, List.length_drop]
  omega

/-! ## All the tokens that are left -/

/-- The end of the text is the only place without a next token. -/
theorem lexeme?_eq_none_iff {t : Tokenizer Cursor} : t.lexeme? = none ↔ t.source.ahead = [] := by
  change Lexeme.next? _ _ t.source.ahead = none ↔ _
  cases t.source.ahead <;> simp [Lexeme.next?]

theorem run_take_zero (t : Tokenizer Cursor) : Id.run (t.take 0) = ([], t) := rfl

theorem run_take_succ_of_none {t : Tokenizer Cursor} (h : t.lexeme? = none) (n : Nat) :
    Id.run (t.take (n + 1)) = ([], t) := by
  have hn : (t.next? : Id _) = none := (run_next? t).trans (by rw [h]; rfl)
  rw [take, hn]
  rfl

theorem run_take_succ_of_some {t : Tokenizer Cursor} {lx : Lexeme} (h : t.lexeme? = some lx)
    (n : Nat) :
    Id.run (t.take (n + 1)) =
      (t.token lx :: (Id.run ((t.after lx).take n)).1, (Id.run ((t.after lx).take n)).2) := by
  have hn : (t.next? : Id _) = some (t.token lx, t.after lx) :=
    (run_next? t).trans (by rw [h]; rfl)
  rw [take, hn]
  rfl

/-- **As many tokens as characters are enough** to come to the end. -/
theorem lexeme?_take : ∀ (n : Nat) {t : Tokenizer Cursor}, t.source.ahead.length ≤ n →
    (Id.run (t.take n)).2.lexeme? = none
  | 0, t, h => lexeme?_eq_none_iff.mpr (List.eq_nil_of_length_eq_zero (Nat.le_zero.mp h))
  | n + 1, t, h => by
      cases hlx : t.lexeme? with
      | none => rw [run_take_succ_of_none hlx]; exact hlx
      | some lx =>
        rw [run_take_succ_of_some hlx]
        have := length_ahead_after_lt hlx
        exact lexeme?_take n (by omega)

/-- **All the tokens that are left** end where nothing is left. -/
theorem ahead_rest (t : Tokenizer Cursor) : (Id.run t.rest).2.source.ahead = [] :=
  lexeme?_eq_none_iff.mp (lexeme?_take _ (Nat.le_refl _))

end Tokenizer

end StyleLex
