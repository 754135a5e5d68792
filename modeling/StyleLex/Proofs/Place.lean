import StyleLex.Proofs.Run

/-!
# Proofs/Place — positions and locations along a run

Positions are moved by adding, as far as the largest one (`shiftPosition_add`).

`Location.past n cs` is the location after the first `n` characters of `cs`: what a tracker counts,
without the tracker (`Tracker.advance_eq`).  It composes (`past_add`), and it does not matter
whether a text is counted from its own beginning and then placed in its document, or counted in the
document right away (`within_past`).  The second needs a location that lines and columns can be
counted from, each being at least 1 (`Counts`); a tracker never leaves these.  Where no line ends it
only moves along its line (`past_of_not_isLineEnd`).

So the location of a token is the location of the token before it, moved past that token
(`location_after`).
-/

namespace StyleLex

/-! ## Positions -/

/-- Moving a position twice is moving it once, also where the largest position is reached. -/
theorem shiftPosition_shiftPosition (i j p : Nat) :
    shiftPosition i (shiftPosition j p) = shiftPosition (j + i) p := by
  unfold shiftPosition
  omega

/-- A position may be moved in steps, since the limit is reached once and kept. -/
theorem shiftPosition_add (offset p n : Nat) :
    shiftPosition offset (p + n) = shiftPosition n (shiftPosition offset p) := by
  rw [shiftPosition_shiftPosition, shiftPosition, shiftPosition, Nat.add_assoc, Nat.add_comm n]

theorem shiftPosition_mono (offset : Nat) {p q : Nat} (h : p ≤ q) :
    shiftPosition offset p ≤ shiftPosition offset q := by
  unfold shiftPosition
  omega

/-! ## Locations -/

namespace Location

/-- The location after the first `n` characters of `cs`, or all of them if there are fewer. -/
def past (loc : Location) : (n : Nat) → (cs : List Char) → Location
  | 0, _ => loc
  | _, [] => loc
  | n + 1, c :: cs => (loc.after c cs.head?).past n cs

@[simp] theorem past_zero (loc : Location) (cs : List Char) : loc.past 0 cs = loc := by
  unfold past
  rfl

@[simp] theorem past_nil (loc : Location) (n : Nat) : loc.past n [] = loc := by
  cases n <;> rfl

/-- **A step may be cut in two**, the second part going over the characters behind the first. -/
theorem past_add (loc : Location) (m n : Nat) (cs : List Char) :
    loc.past (m + n) cs = (loc.past m cs).past n (cs.drop m) := by
  induction m generalizing loc cs with
  | zero => rw [Nat.zero_add, past_zero, List.drop_zero]
  | succ m ih =>
    cases cs with
    | nil => rw [List.drop_nil, past_nil, past_nil, past_nil]
    | cons c cs =>
      rw [Nat.succ_add, past, past, ih, List.drop_succ_cons]

/-- Of what follows the counted characters only the next one matters: it may be the line feed after
a carriage return. -/
theorem past_take (loc : Location) {n m : Nat} (h : n < m) (cs : List Char) :
    loc.past n (cs.take m) = loc.past n cs := by
  induction n generalizing loc m cs with
  | zero => rw [past_zero, past_zero]
  | succ n ih =>
    obtain ⟨k, rfl⟩ : ∃ k, m = k + 1 := ⟨m - 1, by omega⟩
    have hk : n < k := by omega
    cases cs with
    | nil => rw [List.take_nil]
    | cons c cs =>
      rw [List.take_succ_cons, past, past, ih _ hk, List.head?_take, if_neg (Nat.ne_zero_of_lt hk)]

/-- The location `n` characters further on the same line. -/
def alongLine (loc : Location) (n : Nat) : Location :=
  { loc with column := loc.column + n, offset := loc.offset + n }

/-- Any other character stands on the line. -/
theorem after_of_not_isLineEnd (loc : Location) {c : Char} (hc : Chars.isLineEnd c = false)
    (next : Option Char) : loc.after c next = loc.afterChar := by
  simp only [Chars.isLineEnd, Bool.or_eq_false_iff, beq_eq_false_iff_ne] at hc
  obtain ⟨⟨hreturn, hfeed⟩, hform⟩ := hc
  exact if_neg fun h => h.elim hfeed fun h => h.elim hform fun h => hreturn h.1

/-- **Characters that end no line** move a location along its line. -/
theorem past_of_not_isLineEnd (loc : Location) {n : Nat} {cs : List Char} (hn : n ≤ cs.length)
    (h : ∀ c ∈ cs.take n, Chars.isLineEnd c = false) : loc.past n cs = loc.alongLine n := by
  induction n generalizing loc cs with
  | zero => exact past_zero loc cs
  | succ n ih =>
    cases cs with
    | nil => exact absurd hn (Nat.not_succ_le_zero n)
    | cons c cs =>
      rw [List.take_succ_cons] at h
      obtain ⟨hc, hcs⟩ := List.forall_mem_cons.mp h
      rw [past, after_of_not_isLineEnd loc hc, ih _ (Nat.le_of_succ_le_succ hn) hcs]
      simp only [alongLine, afterChar, Nat.add_assoc, Nat.add_comm 1]

/-! ## Placing a text in its document -/

/-- Lines and columns count from 1. -/
def Counts (loc : Location) : Prop := 1 ≤ loc.line ∧ 1 ≤ loc.column

theorem counts_first : Counts first := ⟨Nat.le_refl 1, Nat.le_refl 1⟩

theorem Counts.after {loc : Location} (h : loc.Counts) (c : Char) (next : Option Char) :
    (loc.after c next).Counts := by
  unfold Location.after
  split
  · exact ⟨Nat.le_add_left .., Nat.le_refl 1⟩
  · exact ⟨h.1, Nat.le_add_left ..⟩

/-- **Lines and columns stay counted from 1**, however far the tracker goes. -/
theorem Counts.past {loc : Location} (h : loc.Counts) (n : Nat) (cs : List Char) :
    (loc.past n cs).Counts := by
  induction n generalizing loc cs with
  | zero => rwa [past_zero]
  | succ n ih =>
    cases cs with
    | nil => rwa [past_nil]
    | cons c cs => exact ih (h.after c cs.head?) cs

theorem within_afterBreak (origin : Location) {loc : Location} (h : loc.Counts) :
    origin.within loc.afterBreak = (origin.within loc).afterBreak := by
  have hline : origin.line + (loc.line + 1) - 1 = origin.line + loc.line - 1 + 1 := by
    have := h.1
    omega
  have hne : loc.line + 1 ≠ 1 := Nat.succ_ne_succ_iff.mpr (Nat.ne_of_gt h.1)
  rw [within, within, afterBreak, afterBreak]
  simp only
  rw [hline, if_neg hne, Nat.add_assoc origin.offset]

theorem within_afterChar (origin : Location) {loc : Location} (h : loc.Counts) :
    origin.within loc.afterChar = (origin.within loc).afterChar := by
  have hcolumn : origin.column + (loc.column + 1) - 1 = origin.column + loc.column - 1 + 1 := by
    have := h.2
    omega
  rw [within, within, afterChar, afterChar]
  simp only
  rw [hcolumn, Nat.add_assoc origin.offset]
  split <;> rfl

/-- **Placing and counting commute**: a text may be placed in its document before a character of it
is counted, or after. -/
theorem within_after (origin : Location) {loc : Location} (h : loc.Counts) (c : Char)
    (next : Option Char) : origin.within (loc.after c next) = (origin.within loc).after c next := by
  unfold after
  split
  · exact within_afterBreak origin h
  · exact within_afterChar origin h

/-- **Counting a text and placing it** can be done in either order. -/
theorem within_past (origin : Location) {loc : Location} (h : loc.Counts) (n : Nat)
    (cs : List Char) : origin.within (loc.past n cs) = (origin.within loc).past n cs := by
  induction n generalizing loc cs with
  | zero => rw [past_zero, past_zero]
  | succ n ih =>
    cases cs with
    | nil => rw [past_nil, past_nil]
    | cons c cs => rw [past, past, ih (h.after c cs.head?), within_after origin h]

/-- A text at the beginning of its document is where it is. -/
theorem first_within (loc : Location) : first.within loc = loc := by
  obtain ⟨line, column, offset⟩ := loc
  simp only [within, first, Location.mk.injEq]
  refine ⟨by omega, ?_, by omega⟩
  split <;> omega

end Location

namespace Tracker

/-- **What a tracker counts.** -/
theorem advance_eq (t : Tracker) (n : Nat) (cs : List Char) :
    t.advance n cs = ⟨t.origin, t.relative.past n cs⟩ := by
  induction n generalizing t cs with
  | zero =>
    rw [Location.past_zero]
    unfold advance
    rfl
  | succ n ih =>
    cases cs with
    | nil => rfl
    | cons c cs =>
      rw [advance, ih]
      rfl

/-- A tracker may go in steps of any size. -/
theorem advance_add (t : Tracker) (m n : Nat) (cs : List Char) :
    t.advance (m + n) cs = (t.advance m cs).advance n (cs.drop m) := by
  rw [advance_eq, advance_eq, advance_eq, Location.past_add]

end Tracker

namespace Tokenizer

theorem counts_ofSource (c : Cursor) (config : Config) :
    (ofSource c config).tracker.relative.Counts := Location.counts_first

/-- One token leaves lines and columns counted from 1. -/
theorem counts_after {t : Tokenizer Cursor} (h : t.tracker.relative.Counts) (lx : Lexeme) :
    (t.after lx).tracker.relative.Counts := by
  rw [after, Tracker.advance_eq]
  exact h.past lx.length t.source.ahead

/-- **The location moves past the token.** -/
theorem location_after {t : Tokenizer Cursor} (h : t.tracker.relative.Counts) (lx : Lexeme) :
    (t.after lx).location = t.location.past lx.length t.source.ahead := by
  unfold location
  rw [after, Tracker.advance_eq]
  exact Location.within_past t.tracker.origin h lx.length t.source.ahead

theorem Run.counts {t u : Tokenizer Cursor} {tokens : List Token} (h : Run t tokens u)
    (hc : t.tracker.relative.Counts) : u.tracker.relative.Counts := by
  induction h with
  | done => exact hc
  | step head _ ih =>
    obtain ⟨lx, -, -, rfl⟩ := next?_eq_some_iff.mp head
    exact ih (counts_after hc lx)

/-- **The location moves past all that a run consumes.** -/
theorem Run.location_eq {t u : Tokenizer Cursor} {tokens : List Token} (h : Run t tokens u)
    (hi : t.ClosesAhead) (hc : t.tracker.relative.Counts) :
    u.location =
      t.location.past (tokens.flatMap fun token => token.text.toList).length t.source.ahead := by
  induction h with
  | done => rw [List.flatMap_nil, List.length_nil, Location.past_zero]
  | step head _ ih =>
    obtain ⟨lx, hlx, rfl, rfl⟩ := next?_eq_some_iff.mp head
    rw [ih (closesAhead_after hlx) (counts_after hc lx), location_after hc, ahead_after,
      List.flatMap_cons, List.length_append, length_text_token (length_le_ahead hi hlx),
      Location.past_add]

end Tokenizer

end StyleLex
