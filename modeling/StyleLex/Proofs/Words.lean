import StyleLex.Proofs.Stepwise

/-!
# Proofs/Words — lexing in machine words

A program counts in words of 64 bits and reads a text of which its window is a part.  As long as the
sums are words, it counts exactly, however it was built (`Machine.exact`), and a cursor in words
behaves like the cursor of its window (`Checked.faithful`).  A text in memory has fewer characters
than there are words, so the positions in it are words, and so are lines and columns that are
counted from its beginning (`tracks_ofSource`).

That leaves the locations of tokens, for which the location of the beginning is added, and that may
be any word.  So a lexer in words gives the measured tokens as far as these sums go.
-/

namespace StyleLex

/-! ## Counting -/

namespace Machine

variable {b : Build} {i j : Nat}

theorem mod_wordSize (h : i ≤ maxPosition) : i % wordSize = i :=
  Nat.mod_eq_of_lt (Nat.lt_succ_of_le h)

/-- A sum that is a word is that word. -/
theorem add_eq (h : i + j ≤ maxPosition) : Counting.add i j = (pure (i + j) : Machine b Nat) := by
  cases b with
  | checked => exact if_pos h
  | wrapping => exact congrArg some (mod_wordSize h)

/-- With checks a sum that is no word stops the program. -/
theorem add_checked_of_lt (h : maxPosition < i + j) :
    (Counting.add i j : Machine .checked Nat) = ofOption none := if_neg (Nat.not_le_of_gt h)

/-- A difference that is not below zero is that difference. -/
theorem sub_eq (hle : j ≤ i) (h : i ≤ maxPosition) :
    Counting.sub i j = (pure (i - j) : Machine b Nat) := by
  cases b with
  | checked => exact if_pos hle
  | wrapping =>
    have hsplit : i + wordSize - j = i - j + wordSize := Nat.sub_add_comm hle
    refine congrArg some ?_
    rw [hsplit, Nat.add_mod_right, mod_wordSize (Nat.le_trans (Nat.sub_le ..) h)]

/-- Without checks nothing is left of an overflow where 1 is taken off again. -/
theorem pred_add_wrapping (h : 1 ≤ j) :
    (do Counting.sub (← Counting.add i j) 1 : Machine .wrapping Nat) =
      pure ((i + j - 1) % wordSize) := by
  refine congrArg some ?_
  simp only [wordSize, maxPosition]
  omega

theorem exact (b : Build) : Counting.Exact (Machine b) (· ≤ maxPosition) where
  add_eq := add_eq
  sub_eq := sub_eq
  fits_of_le := Nat.le_trans

end Machine

/-! ## Locations -/

namespace Location

open Machine

variable {origin loc : Location}

/-- **The sums are words** when a text begins at `origin` and the place `loc` in it is looked for:
those of line and column before 1 is taken off again. -/
structure Reaches (origin loc : Location) : Prop where
  line : origin.line + loc.line ≤ maxPosition
  column : loc.line = 1 → origin.column + loc.column ≤ maxPosition
  offset : origin.offset + loc.offset ≤ maxPosition

/-- The location without the bits that do not fit in a word. -/
def wrapped (loc : Location) : Location :=
  ⟨loc.line % wordSize, loc.column % wordSize, loc.offset % wordSize⟩

theorem wrapped_eq (hline : loc.line ≤ maxPosition) (hcolumn : loc.column ≤ maxPosition)
    (hoffset : loc.offset ≤ maxPosition) : loc.wrapped = loc := by
  rw [wrapped, mod_wordSize hline, mod_wordSize hcolumn, mod_wordSize hoffset]

/-- **Where the sums are words** the place is found, however the program was built. -/
theorem Reaches.withinM_eq {b : Build} (h : Reaches origin loc) (hcounts : loc.Counts) :
    origin.withinM loc = (pure (origin.within loc) : Machine b Location) :=
  Location.withinM_eq (Machine.exact b) hcounts h.line h.column h.offset

/-- **With checks** the place is found nowhere else. -/
theorem withinM_checked_of_not (h : ¬Reaches origin loc) :
    (origin.withinM loc : Machine .checked Location) = ofOption none := by
  rw [withinM]
  cases hcolumn : (origin.columnWithinM loc : Machine .checked Nat) with
  | none => rfl
  | some column =>
    -- the column is a word, so it is one of the other two sums
    by_cases hline : origin.line + loc.line ≤ maxPosition
    · by_cases hoffset : origin.offset + loc.offset ≤ maxPosition
      · refine absurd ⟨hline, fun hfirst => Nat.le_of_not_lt fun hlt => ?_, hoffset⟩ h
        rw [columnWithinM, if_pos hfirst, add_checked_of_lt hlt] at hcolumn
        cases hcolumn
      · rw [add_checked_of_lt (Nat.lt_of_not_le hoffset), add_eq hline]
        exact Option.bind_fun_none (Counting.sub (origin.line + loc.line) 1 : Machine .checked Nat)
    · rw [add_checked_of_lt (Nat.lt_of_not_le hline)]
      rfl

/-- **Without checks** the place is found but for the bits that do not fit in the end. -/
theorem withinM_wrapping (hcounts : loc.Counts) (hfits : loc.column ≤ maxPosition) :
    (origin.withinM loc : Machine .wrapping Location) = pure (origin.within loc).wrapped := by
  have hcolumn : (origin.columnWithinM loc : Machine .wrapping Nat) =
      pure ((origin.within loc).column % wordSize) := by
    rw [columnWithinM, within]
    by_cases hfirst : loc.line = 1
    · rw [if_pos hfirst, if_pos hfirst, pred_add_wrapping hcounts.2]
    · rw [if_neg hfirst, if_neg hfirst, mod_wordSize hfits]
  rw [withinM, hcolumn, pure_bind, ← bind_assoc, pred_add_wrapping hcounts.1, pure_bind]
  rfl

end Location

/-! ## The cursor in words -/

namespace Checked

variable {s : Checked} {c : Cursor}

/-- **A cursor in words goes with a cursor**: at the same place of the same window, the end of which
is a word. -/
structure Follows (s : Checked) (c : Cursor) : Prop where
  mirrors : s.Mirrors c
  stop_le : s.stop ≤ maxPosition

namespace Follows

variable (h : s.Follows c)

include h

/-- Every place that is left is a word. -/
theorem add_le {n : Nat} (hn : n ≤ c.ahead.length) : s.position + n ≤ maxPosition := by
  have hstop := h.stop_le
  have hposition := c.position_le_stop
  rw [h.mirrors.stop_eq] at hposition
  rw [Cursor.length_ahead, Cursor.left, h.mirrors.stop_eq] at hn
  rw [h.mirrors.position_eq]
  omega

theorem hasMore?_eq_some {offset : Nat} (hoffset : offset ≤ c.ahead.length) :
    s.hasMore? offset = some (decide (offset < c.ahead.length)) := by
  rw [hasMore?, word?_of_le (h.add_le hoffset)]
  refine congrArg some (decide_eq_decide.mpr ?_)
  have hposition := c.position_le_stop
  rw [h.mirrors.stop_eq] at hposition
  rw [Cursor.length_ahead, Cursor.left, h.mirrors.stop_eq, h.mirrors.position_eq]
  omega

theorem run_eq_some (p : Char → Bool) {offset : Nat} (hoffset : offset ≤ c.ahead.length) :
    s.view.runFrom? p none offset 0 = some (Extent.run p (c.ahead.drop offset)) := by
  have hshows := h.mirrors.shows h.stop_le offset (h.add_le hoffset)
  rw [View.runFrom?_eq_some p none hshows, Nat.zero_add]
  rfl

end Follows

/-- **A cursor in words behaves like the cursor of its window**, however the program was built. -/
theorem faithful (b : Build) : Source.Faithful (Machine b) Follows (· ≤ maxPosition) where
  toExact := Machine.exact b
  tell_eq h := h.mirrors.position_eq
  ahead_eq {s c} h := by
    rw [Cursor.ahead, h.mirrors.text_eq, ← h.mirrors.position_eq]
    rfl
  hasMore_eq h _ hoffset := h.hasMore?_eq_some hoffset
  look_eq h _ hoffset := h.mirrors.peek?_eq_some (h.mirrors.position_eq ▸ h.add_le hoffset)
  count_eq h offset hoffset k := h.mirrors.count?_eq_some h.stop_le offset (h.add_le hoffset) k
  run_eq h _ hoffset p := h.run_eq_some p hoffset
  slice_eq h i j _ _ _ := h.mirrors.slice?_eq_some i j
  advance_gives h n hn flushing := by
    obtain ⟨s', hs', hmirrors, hstop⟩ := h.mirrors.exists_advance? (h.add_le hn) flushing
    exact ⟨s', hs', hmirrors, hstop ▸ h.stop_le⟩
  flush_gives {s c} h p := by
    have hstop : (s.flush p).stop = s.stop := by
      unfold Checked.flush
      split <;> rfl
    exact ⟨s.flush p, rfl, h.mirrors.flush p, hstop ▸ h.stop_le⟩
  rewind_gives h := ⟨_, rfl, h.mirrors.rewind, h.stop_le⟩

end Checked

/-! ## The lexer in words -/

namespace Tokenizer

open Checked

variable {text : List Char} {config : Config}

/-- A window inside its text is read in words. -/
theorem inWords?_of_le (hstart : config.start ≤ config.stopIn text)
    (hstop : config.stopIn text ≤ text.length) :
    inWords? text config =
      .ok (ofSource (Checked.atStart text config.start (config.stopIn text)) config) :=
  if_pos ⟨hstart, hstop⟩

/-- Any other window is refused. -/
theorem inWords?_of_not_le
    (h : ¬(config.start ≤ config.stopIn text ∧ config.stopIn text ≤ text.length)) :
    inWords? text config = .error ⟨config.start, config.stopIn text, text.length⟩ := if_neg h

/-- **At the beginning of a window** the lexer in words goes along with that of a cursor. -/
theorem tracks_ofSource (hstart : config.start ≤ config.stopIn text)
    (hstop : config.stopIn text ≤ text.length) (hlength : text.length < maxPosition) :
    Tracks Checked.Follows (· ≤ maxPosition)
      (ofSource (Cursor.atStart (config.window hstart hstop)) config)
      (ofSource (Checked.atStart text config.start (config.stopIn text)) config) := by
  have hahead : (Cursor.atStart (config.window hstart hstop)).ahead.length < maxPosition := by
    have htake : (Cursor.atStart (config.window hstart hstop)).ahead.length =
        config.stopIn text - config.start := by
      rw [Cursor.length_ahead, Cursor.left]
      exact congrArg (· - config.start) (config.stop_window hstart hstop)
    omega
  refine ⟨⟨⟨rfl, hstop, rfl, rfl, rfl⟩, Nat.le_of_lt (Nat.lt_of_le_of_lt hstop hlength)⟩, rfl, rfl,
    rfl, ?_, ?_, ?_⟩
  · exact (Nat.add_comm ..).symm ▸ hahead
  · exact (Nat.add_comm ..).symm ▸ hahead
  · exact (Nat.zero_add _).symm ▸ Nat.le_of_lt hahead

end Tokenizer

end StyleLex
