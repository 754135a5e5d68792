import Mathlib.Data.List.Forall2
import StyleLex.Proofs.Place
import StyleLex.Proofs.Widening

/-!
# Proofs/LineEnds — line ends may be written in either way

A line end is a line feed, or a carriage return and a line feed.  Writing a text in the one way or
the other gives the same tokens, with the same values, lines and columns, and the line ends in them
written in that way (`tokens_crlf`).  Only positions and offsets differ.

The two runs go in step (`Widens`): the one has ahead what the other has ahead, with carriage
returns.  One token keeps the relation (`Widens.after`), because both texts begin with the same
token (`Lexeme.next?_crlf`) and because the location after it is the same but for the offset
(`Location.Agrees.past`).
-/

namespace StyleLex

/-! ## Locations -/

namespace Location

/-- **The same line and column.** -/
structure Agrees (a b : Location) : Prop where
  line_eq : b.line = a.line
  column_eq : b.column = a.column

theorem Agrees.refl (a : Location) : Agrees a a := ⟨rfl, rfl⟩

theorem Agrees.afterBreak {a b : Location} (h : Agrees a b) :
    Agrees a.afterBreak b.afterBreak := ⟨congrArg (· + 1) h.line_eq, rfl⟩

theorem Agrees.afterChar {a b : Location} (h : Agrees a b) : Agrees a.afterChar b.afterChar :=
  ⟨h.line_eq, congrArg (· + 1) h.column_eq⟩

/-- Only behind a carriage return it matters what follows. -/
theorem Agrees.after {a b : Location} (h : Agrees a b) {c : Char} (hc : c ≠ '\r')
    (next next' : Option Char) : Agrees (a.after c next) (b.after c next') := by
  unfold Location.after
  simp only [hc, false_and, or_false]
  split
  · exact h.afterBreak
  · exact h.afterChar

/-- **A line ends with its line feed**, whatever stands before that. -/
theorem Agrees.afterCrlf {a b : Location} (h : Agrees a b) (next next' : Option Char) :
    Agrees (a.after '\n' next) ((b.after '\r' (some '\n')).after '\n' next') :=
  ⟨congrArg (· + 1) h.line_eq, rfl⟩

/-- **A text and the text with carriage returns have the same lines and columns.** -/
theorem Agrees.past {a b : Location} (h : Agrees a b) (n : Nat) {cs : List Char}
    (hr : '\r' ∉ cs) : Agrees (a.past n cs) (b.past (width cs n) (crlf cs)) := by
  induction cs generalizing a b n with
  | nil => rwa [crlf_nil, past_nil, past_nil]
  | cons c cs ih =>
    obtain ⟨hc, hcs⟩ := not_or.mp (mt List.mem_cons.mpr hr)
    cases n with
    | zero => rwa [width_zero, past_zero, past_zero]
    | succ n =>
      by_cases hn : c = '\n'
      · -- the carriage return moves the column on, and the line feed resets it
        subst hn
        exact ih (h.afterCrlf _ _) n hcs
      · rw [width_cons hn, crlf_cons hn]
        exact ih (h.after (Ne.symm hc) _ _) n hcs

theorem Agrees.within {a b : Location} (h : Agrees a b) (origin : Location) :
    Agrees (origin.within a) (origin.within b) := by
  refine ⟨?_, ?_⟩
  · rw [Location.within, Location.within, h.line_eq]
  · rw [Location.within, Location.within]
    simp only [h.line_eq, h.column_eq]

end Location

/-! ## Pieces -/

/-- The string with a carriage return before every line feed. -/
def crlfString (s : String) : String := String.ofList (crlf s.toList)

theorem crlfString_ofList (cs : List Char) :
    crlfString (String.ofList cs) = String.ofList (crlf cs) := by
  rw [crlfString, String.toList_ofList]

/-- **The piece at a widened place** is the piece with carriage returns. -/
theorem Span.cut_widen (cs : List Char) {s : Span} (h : s.start ≤ s.stop) :
    Span.cut (crlf cs) (s.widen cs) = crlfString (Span.cut cs s) := by
  obtain ⟨k, hk⟩ := Nat.exists_eq_add_of_le h
  rw [Span.cut, Span.cut, crlfString_ofList, Span.widen, hk, Nat.add_sub_cancel_left]
  simp only
  rw [drop_width, width_add, Nat.add_sub_cancel_left, take_width]

theorem Payload.map_widen (cs : List Char) {p : Payload Span}
    (h : ∀ s ∈ p.pieces, s.start ≤ s.stop) :
    (p.map (Span.widen cs)).map (Span.cut (crlf cs)) =
      (p.map (Span.cut cs)).map crlfString := by
  have hmap : ∀ (f : Span → Span) (g : Span → String),
      (p.map f).map g = p.map fun s => g (f s) := by
    intro f g
    cases p <;> rfl
  have hmap' : ∀ (f : Span → String) (g : String → String),
      (p.map f).map g = p.map fun s => g (f s) := by
    intro f g
    cases p <;> rfl
  rw [hmap, hmap']
  exact map_congr fun s hs => Span.cut_widen cs (h s hs)

/-! ## Tokens -/

/-- **The same token, the line ends in it being written in the other way.**  Its positions and its
offset may be any. -/
structure Token.Widens (token wide : Token) : Prop where
  kind_eq : wide.kind = token.kind
  text_eq : wide.text = crlfString token.text
  payload_eq : wide.payload = token.payload.map crlfString
  location : token.location.Agrees wide.location

namespace Lexeme

/-- **Both texts go on with the same token**, which is widened. -/
theorem next?_crlf (o : Options) {closing : Bool} {cs : List Char} (h : NoEscapedFeed cs)
    (hc : closing = true → ∃ ds, cs = '*' :: '/' :: ds) :
    next? o closing (crlf cs) = (next? o closing cs).map (widen cs) := by
  cases closing with
  | true =>
    obtain ⟨ds, rfl⟩ := hc rfl
    rw [crlf_cons (by decide), crlf_cons (by decide)]
    rfl
  | false =>
    cases cs with
    | nil => rfl
    | cons c cs =>
      by_cases hn : c = '\n'
      · subst hn
        exact congrArg some (leading_lf o cs)
      · rw [crlf_cons hn]
        exact congrArg some (leading_crlf o hn h)

end Lexeme

namespace Tokenizer

/-- **Two runs in step**: `u` has ahead what `t` has ahead, with carriage returns. -/
structure Widens (t u : Tokenizer Cursor) : Prop where
  options_eq : u.config.options = t.config.options
  closing_eq : u.closing = t.closing
  ahead_eq : u.source.ahead = crlf t.source.ahead
  origin_eq : u.tracker.origin = t.tracker.origin
  relative : t.tracker.relative.Agrees u.tracker.relative
  noReturn : '\r' ∉ t.source.ahead
  noEscapedFeed : NoEscapedFeed t.source.ahead
  closesAhead : t.ClosesAhead

namespace Widens

variable {t u : Tokenizer Cursor} {lx : Lexeme}

theorem lexeme?_eq (h : Widens t u) :
    u.lexeme? = t.lexeme?.map (Lexeme.widen t.source.ahead) := by
  change Lexeme.next? _ _ u.source.ahead = (Lexeme.next? _ _ t.source.ahead).map _
  rw [h.options_eq, h.closing_eq, h.ahead_eq]
  exact Lexeme.next?_crlf _ h.noEscapedFeed h.closesAhead

theorem length_le (h : Widens t u) (hlx : t.lexeme? = some lx) :
    (lx.widen t.source.ahead).length ≤ u.source.ahead.length := by
  have hle := length_le_ahead h.closesAhead hlx
  obtain ⟨k, hk⟩ := Nat.exists_eq_add_of_le hle
  rw [h.ahead_eq, length_crlf, hk, width_add]
  exact Nat.le_add_right ..

/-- **One token is widened.** -/
theorem token (h : Widens t u) (hlx : t.lexeme? = some lx) :
    (t.token lx).Widens (u.token (lx.widen t.source.ahead)) := by
  rw [token_eq (length_le_ahead h.closesAhead hlx), token_eq (h.length_le hlx), h.ahead_eq]
  refine ⟨rfl, ?_, ?_, ?_⟩
  · rw [crlfString_ofList, ← take_width]
    rfl
  · exact Payload.map_widen _ fun s hs => (span_le_of_lexeme? hlx hs).1
  · change (t.tracker.origin.within _).Agrees (u.tracker.origin.within _)
    rw [h.origin_eq]
    exact h.relative.within _

/-- **One token keeps the runs in step.** -/
theorem after (h : Widens t u) (hlx : t.lexeme? = some lx) :
    Widens (t.after lx) (u.after (lx.widen t.source.ahead)) := by
  refine ⟨h.options_eq, rfl, ?_, ?_, ?_, ?_, ?_, closesAhead_after hlx⟩
  · rw [ahead_after, ahead_after, h.ahead_eq, ← drop_width]
    rfl
  · rw [Tokenizer.after, Tokenizer.after, Tracker.advance_eq, Tracker.advance_eq]
    exact h.origin_eq
  · rw [Tokenizer.after, Tokenizer.after, Tracker.advance_eq, Tracker.advance_eq, h.ahead_eq]
    exact h.relative.past lx.length h.noReturn
  · rw [ahead_after]
    exact fun hmem => h.noReturn (List.mem_of_mem_drop hmem)
  · rw [ahead_after]
    exact h.noEscapedFeed.drop lx.length

/-- **All the tokens are widened.** -/
theorem tokens (h : Widens t u) : List.Forall₂ Token.Widens t.tokens u.tokens := by
  induction t using tokens_induction generalizing u with
  | done t hlx =>
    rw [tokens_of_none hlx, tokens_of_none (h.lexeme?_eq.trans (by rw [hlx]; rfl))]
    exact .nil
  | step t lx hlx ih =>
    rw [tokens_of_some hlx, tokens_of_some (h.lexeme?_eq.trans (by rw [hlx]; rfl))]
    exact .cons (h.token hlx) (ih (h.after hlx))

end Widens

/-- **Line ends may be written in either way.**  In a text without carriage returns and without a
backslash before a line feed, put a carriage return before every line feed.  The tokens are the
same, with carriage returns in their texts and values, and begin at the same lines and columns. -/
theorem tokens_crlf {text : List Char} (hr : '\r' ∉ text) (hb : ¬['\\', '\n'] <:+: text)
    (config : Config) :
    ∃ t u, ofConfig? text { config with start := 0, stop := none } = .ok t ∧
      ofConfig? (crlf text) { config with start := 0, stop := none } = .ok u ∧
      List.Forall₂ Token.Widens t.tokens u.tokens := by
  refine ⟨_, _, ofConfig?_of_le (Nat.zero_le _) (Nat.le_refl _),
    ofConfig?_of_le (Nat.zero_le _) (Nat.le_refl _), Widens.tokens ?_⟩
  have hahead : ∀ cs : List Char, (cs.take cs.length).drop 0 = cs := fun cs => by
    rw [List.drop_zero, List.take_length]
  refine ⟨rfl, rfl, ?_, rfl, .refl _, ?_, ?_, closesAhead_ofSource _ _⟩
  · exact (hahead (crlf text)).trans (congrArg crlf (hahead text).symm)
  · change '\r' ∉ (text.take text.length).drop 0
    rwa [hahead]
  · change NoEscapedFeed ((text.take text.length).drop 0)
    rwa [hahead]

/-- A comment over two lines that is split, and a name on the line after it. -/
theorem tokens_crlf_of_comment :
    ∃ t u, ofConfig? ['/', '*', 'a', '\n', '*', '/', '\n', 'b'] { options := ⟨true⟩ } = .ok t ∧
      ofConfig? ['/', '*', 'a', '\r', '\n', '*', '/', '\r', '\n', 'b']
        { options := ⟨true⟩ } = .ok u ∧
      (u.tokens.map fun token => (token.text, token.location.render)) =
        [("/*a\r\n", "1:1"), ("*/", "2:1"), ("\r\n", "2:3"), ("b", "3:1")] ∧
      List.Forall₂ Token.Widens t.tokens u.tokens := by
  obtain ⟨t, u, ht, hu, h⟩ := @tokens_crlf ['/', '*', 'a', '\n', '*', '/', '\n', 'b'] (by decide)
    (by decide) { options := ⟨true⟩ }
  obtain rfl := Except.ok.inj hu
  exact ⟨t, _, ht, rfl, rfl, h⟩

end Tokenizer

end StyleLex
