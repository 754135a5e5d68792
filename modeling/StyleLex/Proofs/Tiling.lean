import StyleLex.Proofs.Run

/-!
# Proofs/Tiling — no character is lost, and the lexer comes to an end

`Tiles text offset p tokens q` says that `tokens` cover the characters of `text` from the position
`p` up to the position `q`: each token begins where the one before it ends, has at least one
character, and has exactly the characters between its two positions as its text.  The positions in
the tokens are those of the text moved by `offset`, which may bring them to the largest position;
`p` and `q` are not moved.

Every run tiles what it consumes (`Run.tiles`), and a tiling of a whole window is all that
`lossless` needs: its texts put together are the window (`Tiles.flatMap_text`), and it has no more
tokens than characters (`Tiles.length_le`).
-/

namespace StyleLex

/-- **The tokens cover the text from one position to another**, without a gap, an overlap or an
empty token. -/
inductive Tiles (text : List Char) (offset : Nat) : (p : Nat) → List Token → (q : Nat) → Prop where
  | nil (p : Nat) : Tiles text offset p [] p
  | cons {p q r : Nat} {token : Token} {tokens : List Token} (lt : p < q)
      (start_eq : token.start = shiftPosition offset p)
      (stop_eq : token.stop = shiftPosition offset q)
      (text_eq : token.text.toList = (text.drop p).take (q - p))
      (tail : Tiles text offset q tokens r) : Tiles text offset p (token :: tokens) r

namespace Tiles

variable {text : List Char} {offset p q : Nat} {tokens : List Token}

/-- A tiling has no more tokens than characters. -/
theorem length_le (h : Tiles text offset p tokens q) : p + tokens.length ≤ q := by
  induction h with
  | nil => exact Nat.le_refl _
  | cons lt _ _ _ _ ih =>
    rw [List.length_cons]
    omega

theorem eq_nil_iff (h : Tiles text offset p tokens q) : tokens = [] ↔ p = q := by
  cases h with
  | nil => exact ⟨fun _ => rfl, fun _ => rfl⟩
  | cons lt _ _ _ tail =>
    have := tail.length_le
    exact ⟨fun h => (nomatch h), fun h => by omega⟩

/-- The last token ends where the tiling ends. -/
theorem stop_getLast (h : Tiles text offset p tokens q) :
    ∀ token ∈ tokens.getLast?, token.stop = shiftPosition offset q := by
  induction h with
  | nil => exact fun _ h => nomatch h
  | cons _ _ stop_eq _ tail ih =>
    intro token hlast
    cases tail with
    | nil =>
      obtain rfl := Option.some.inj hlast
      exact stop_eq
    | cons =>
      rw [List.getLast?_cons_cons] at hlast
      exact ih token hlast

/-- **Nothing is lost**: the texts put together are the characters covered. -/
theorem flatMap_text (h : Tiles text offset p tokens q) :
    (tokens.flatMap fun token => token.text.toList) = (text.drop p).take (q - p) := by
  induction h with
  | nil => rw [Nat.sub_self, List.take_zero, List.flatMap_nil]
  | @cons p q r _ _ lt _ _ text_eq tail ih =>
    have hle := tail.length_le
    have hsum : r - p = (q - p) + (r - q) := by omega
    rw [List.flatMap_cons, text_eq, ih, hsum, List.take_add, List.drop_drop,
      Nat.add_sub_cancel' (Nat.le_of_lt lt)]

/-- What comes after the last position does not matter. -/
theorem of_take {n : Nat} (h : Tiles (text.take n) offset p tokens q) (hn : q ≤ n) :
    Tiles text offset p tokens q := by
  induction h with
  | nil => exact .nil _
  | @cons p q r _ _ lt start_eq stop_eq text_eq tail ih =>
    have hle := tail.length_le
    refine .cons lt start_eq stop_eq ?_ (ih hn)
    rw [text_eq, List.drop_take, List.take_take, Nat.min_eq_left (by omega)]

end Tiles

namespace Tokenizer

/-- **Every run tiles what it consumes.** -/
theorem Run.tiles {t u : Tokenizer Cursor} {tokens : List Token} (h : Run t tokens u)
    (hi : t.ClosesAhead) :
    Tiles t.source.window.text t.config.positionOffset t.source.position tokens
      u.source.position := by
  induction h with
  | done => exact .nil _
  | step head _ ih =>
    obtain ⟨lx, hlx, rfl, rfl⟩ := next?_eq_some_iff.mp head
    have hle := length_le_ahead hi hlx
    have hpos := position_after hle
    have htail := ih (closesAhead_after hlx)
    rw [window_after, hpos] at htail
    rw [token_eq hle]
    refine .cons (Nat.lt_add_of_pos_right (Lexeme.length_pos_of_next? hlx)) rfl rfl ?_ htail
    rw [String.toList_ofList, Nat.add_sub_cancel_left]
    rfl

theorem ahead_eq_nil_iff (c : Cursor) : c.ahead = [] ↔ c.position = c.window.stop := by
  have := c.position_le_stop
  rw [← List.length_eq_zero_iff, Cursor.length_ahead, Cursor.left]
  omega

section Window

variable {text : List Char} {config : Config} {hstart : config.start ≤ config.stopIn text}
  {hstop : config.stopIn text ≤ text.length} {tokens : List Token} {u : Tokenizer Cursor}

theorem Run.position_le_stopIn
    (h : Run (ofSource (Cursor.atStart (config.window hstart hstop)) config) tokens u) :
    u.source.position ≤ config.stopIn text := by
  have hle := u.source.position_le_stop
  rw [h.window_eq] at hle
  exact Nat.le_trans hle (Nat.le_of_eq (config.stop_window hstart hstop))

/-- **A run from the beginning of a window** tiles what it has consumed of the text. -/
theorem Run.tiles_text
    (h : Run (ofSource (Cursor.atStart (config.window hstart hstop)) config) tokens u) :
    Tiles text config.positionOffset config.start tokens u.source.position :=
  (h.tiles (closesAhead_ofSource _ config)).of_take h.position_le_stopIn

/-- The end of the window is where nothing comes next. -/
theorem Run.next?_eq_none_iff
    (h : Run (ofSource (Cursor.atStart (config.window hstart hstop)) config) tokens u) :
    Id.run u.next? = none ↔ u.source.position = config.stopIn text := by
  rw [Tokenizer.next?_eq_none_iff, ahead_eq_nil_iff, h.window_eq,
    ← config.stop_window hstart hstop]
  rfl

end Window

/-- Where nothing comes next, nothing ever does. -/
theorem run_take_of_next?_eq_none {t : Tokenizer Cursor} (h : Id.run t.next? = none) (n : Nat) :
    Id.run (t.take n) = ([], t) := by
  have hlx : t.lexeme? = none := lexeme?_eq_none_iff.mpr (next?_eq_none_iff.mp h)
  cases n with
  | zero => exact run_take_zero t
  | succ n => exact run_take_succ_of_none hlx n

end Tokenizer

end StyleLex
