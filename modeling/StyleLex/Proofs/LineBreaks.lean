import StyleLex.Proofs.Words

/-!
# Proofs/LineBreaks — a location counts the line breaks before it

A tracker goes from character to character and forgets them.  Here a location is told from the text
instead: `Location.inText origin cs p` is the location of the character at `p` in the text `cs`,
which begins at `origin`.  Its line is the number of line breaks before `p`, and its column the
distance from the last of them.

The two agree (`Location.past_eq_inText`), whatever the sizes of the steps in which the tracker went
there.  So the locations in a run depend on how much was consumed, and not on how that was cut into
tokens.

A program finds these locations as long as its words are large enough (`Build.Finds`).  Without
checks it is enough that the location itself is made of words.  With checks that is not so, because
the line and the column are one larger before 1 is taken off again: at the last line that a word can
tell, a program that checks its sums stops (`location_counts_breaks`).
-/

namespace StyleLex

namespace Location

/-- **A line ends with the character at `i`**: a line feed, a form feed, or a carriage return
without a line feed after it, as at the end of the text. -/
def BreaksAt (cs : List Char) (i : Nat) : Prop :=
  cs[i]? = some '\n' ∨ cs[i]? = some '\x0c' ∨ (cs[i]? = some '\r' ∧ cs[i + 1]? ≠ some '\n')

instance (cs : List Char) : DecidablePred (BreaksAt cs) := fun _ =>
  inferInstanceAs (Decidable (_ ∨ _ ∨ _ ∧ _))

/-- The line breaks among the first `p` characters, the first one first. -/
def breaksBefore (cs : List Char) (p : Nat) : List Nat :=
  (List.range p).filter fun i => BreaksAt cs i

/-- **The location of the character at `p`** in a text that begins at `origin`. -/
def inText (origin : Location) (cs : List Char) (p : Nat) : Location where
  line := origin.line + (breaksBefore cs p).length
  column :=
    match (breaksBefore cs p).getLast? with
    | none => origin.column + p
    | some i => p - i
  offset := origin.offset + p

theorem breaksBefore_succ (cs : List Char) (p : Nat) :
    breaksBefore cs (p + 1) = breaksBefore cs p ++ if BreaksAt cs p then [p] else [] := by
  rw [breaksBefore, List.range_succ, List.filter_append, breaksBefore, List.filter_cons,
    List.filter_nil]
  simp only [decide_eq_true_eq]

theorem lt_of_getLast?_breaksBefore {cs : List Char} {p i : Nat}
    (h : (breaksBefore cs p).getLast? = some i) : i < p :=
  List.mem_range.mp (List.mem_filter.mp (List.mem_of_getLast? h)).1

theorem inText_zero (origin : Location) (cs : List Char) : origin.inText cs 0 = origin := rfl

theorem inText_succ_of_break (origin : Location) {cs : List Char} {p : Nat} (h : BreaksAt cs p) :
    origin.inText cs (p + 1) = (origin.inText cs p).afterBreak := by
  rw [inText, breaksBefore_succ, if_pos h, List.length_append, List.getLast?_concat]
  simp only [inText, afterBreak, Location.mk.injEq, List.length_singleton]
  omega

/-- The column grows from the last break on, or from the origin if there is none. -/
theorem inText_succ_of_not_break (origin : Location) {cs : List Char} {p : Nat}
    (h : ¬BreaksAt cs p) : origin.inText cs (p + 1) = (origin.inText cs p).afterChar := by
  rw [inText, breaksBefore_succ, if_neg h, List.append_nil]
  simp only [inText, afterChar, Location.mk.injEq, true_and]
  refine ⟨?_, rfl⟩
  cases hlast : (breaksBefore cs p).getLast? with
  | none => rfl
  | some i => exact Nat.succ_sub (Nat.le_of_lt (lt_of_getLast?_breaksBefore hlast))

/-- One step of a tracker asks whether a line ends there. -/
theorem past_one_drop (loc : Location) {cs : List Char} {p : Nat} (hp : p < cs.length) :
    loc.past 1 (cs.drop p) = if BreaksAt cs p then loc.afterBreak else loc.afterChar := by
  have hcond : (cs[p] = '\n' ∨ cs[p] = '\x0c' ∨
      (cs[p] = '\r' ∧ (cs.drop (p + 1)).head? ≠ some '\n')) ↔ BreaksAt cs p := by
    rw [BreaksAt, List.getElem?_eq_getElem hp, List.head?_drop, Option.some.injEq,
      Option.some.injEq, Option.some.injEq]
  rw [List.drop_eq_getElem_cons hp, past, past_zero, after]
  simp only [hcond]

/-- **What a tracker counts is told by the text.** -/
theorem past_eq_inText (origin : Location) {cs : List Char} {p : Nat} (hp : p ≤ cs.length) :
    origin.past p cs = origin.inText cs p := by
  induction p with
  | zero => rw [past_zero, inText_zero]
  | succ p ih =>
    rw [past_add, ih (Nat.le_of_succ_le hp), past_one_drop _ hp]
    split
    · next h => exact (inText_succ_of_break origin h).symm
    · next h => exact (inText_succ_of_not_break origin h).symm

/-- The place of a character in a text of its own. -/
theorem inText_first (cs : List Char) (q : Nat) :
    (first.inText cs q).line = 1 + (breaksBefore cs q).length ∧
      (first.inText cs q).offset = q ∧
      (breaksBefore cs q = [] → (first.inText cs q).column = 1 + q) := by
  refine ⟨rfl, Nat.zero_add q, fun hnone => ?_⟩
  rw [inText, hnone]
  rfl

theorem column_inText_first_le (cs : List Char) (q : Nat) :
    (first.inText cs q).column ≤ 1 + q := by
  rw [inText]
  split
  · exact Nat.le_refl _
  · exact Nat.le_trans (Nat.sub_le ..) (Nat.le_add_left ..)

/-- **A text is placed in its document** as its breaks say. -/
theorem within_inText (origin : Location) {cs : List Char} {q : Nat} (hq : q ≤ cs.length) :
    origin.within (first.inText cs q) = origin.inText cs q := by
  rw [← past_eq_inText first hq, within_past origin counts_first, ← past_eq_inText origin hq]
  rfl

end Location

open Location

/-! ## Where words are large enough -/

/-- **The words of a program are large enough** to find the character at `q` of a text that begins
at `origin`.  With checks, each sum on the way is a word, line and column being counted from 1.
Without checks, the location is made of words. -/
def Build.Finds (b : Build) (origin : Location) (cs : List Char) (q : Nat) : Prop :=
  match b with
  | .checked =>
    origin.line + (1 + (breaksBefore cs q).length) ≤ maxPosition ∧
      (breaksBefore cs q = [] → origin.column + (1 + q) ≤ maxPosition) ∧
      origin.offset + q ≤ maxPosition
  | .wrapping =>
    (origin.inText cs q).line ≤ maxPosition ∧
      (origin.inText cs q).column ≤ maxPosition ∧
      (origin.inText cs q).offset ≤ maxPosition

instance (b : Build) (origin : Location) (cs : List Char) : DecidablePred (b.Finds origin cs) :=
  fun _ =>
    match b with
    | .checked => inferInstanceAs (Decidable (_ ∧ _ ∧ _))
    | .wrapping => inferInstanceAs (Decidable (_ ∧ _ ∧ _))

theorem Build.finds_checked_iff {origin : Location} {cs : List Char} {q : Nat} :
    Build.checked.Finds origin cs q ↔ origin.Reaches (first.inText cs q) := by
  obtain ⟨hline, hoffset, hcolumn⟩ := inText_first cs q
  have hfirst : (first.inText cs q).line = 1 ↔ breaksBefore cs q = [] := by
    rw [hline, ← List.length_eq_zero_iff]
    omega
  constructor
  · rintro ⟨hl, hc, ho⟩
    refine ⟨hline ▸ hl, fun hone => ?_, hoffset.symm ▸ ho⟩
    have hnone := hfirst.mp hone
    exact (hcolumn hnone).symm ▸ hc hnone
  · rintro ⟨hl, hc, ho⟩
    refine ⟨hline ▸ hl, fun hnone => ?_, hoffset ▸ ho⟩
    exact hcolumn hnone ▸ hc (hfirst.mpr hnone)

/-- **A program finds a place** for which its words are large enough. -/
theorem Build.Finds.withinM_eq {b : Build} {origin : Location} {cs : List Char} {q : Nat}
    (h : b.Finds origin cs q) (hq : q ≤ cs.length) (hlength : cs.length < maxPosition) :
    origin.withinM (first.past q cs) = (pure (origin.inText cs q) : Machine b Location) := by
  have hcounts := counts_first.past q cs
  rw [← within_inText origin hq]
  rw [past_eq_inText first hq] at hcounts ⊢
  cases b with
  | checked => exact (Build.finds_checked_iff.mp h).withinM_eq hcounts
  | wrapping =>
    obtain ⟨hline, hcolumn, hoffset⟩ := h
    have hfits := column_inText_first_le cs q
    rw [withinM_wrapping hcounts (by omega), within_inText origin hq,
      wrapped_eq hline hcolumn hoffset]

/-- **With checks** a program finds no other place. -/
theorem withinM_checked_of_not_finds {origin : Location} {cs : List Char} {q : Nat}
    (h : ¬Build.checked.Finds origin cs q) (hq : q ≤ cs.length) :
    (origin.withinM (first.past q cs) : Machine .checked Location) = Machine.ofOption none := by
  rw [past_eq_inText first hq]
  exact withinM_checked_of_not (mt Build.finds_checked_iff.mpr h)

namespace Tokenizer

variable {text : List Char} {config : Config} {hstart : config.start ≤ config.stopIn text}
  {hstop : config.stopIn text ≤ text.length}

theorem ahead_ofSource :
    (ofSource (Cursor.atStart (config.window hstart hstop)) config).source.ahead =
      (text.drop config.start).take (config.stopIn text - config.start) := List.drop_take

/-- **A run from the beginning of a window** ends where the characters of the window say. -/
theorem Run.location_eq_inText {tokens : List Token} {u : Tokenizer Cursor}
    (h : Run (ofSource (Cursor.atStart (config.window hstart hstop)) config) tokens u) :
    (tokens.flatMap fun token => token.text.toList).length ≤
        ((text.drop config.start).take (config.stopIn text - config.start)).length ∧
      u.location = config.location.inText
        ((text.drop config.start).take (config.stopIn text - config.start))
        (tokens.flatMap fun token => token.text.toList).length := by
  have hcloses := closesAhead_ofSource (Cursor.atStart (config.window hstart hstop)) config
  have hcounts := counts_ofSource (Cursor.atStart (config.window hstart hstop)) config
  have hlen := congrArg List.length (h.ahead_eq hcloses)
  have hpast := h.location_eq hcloses hcounts
  rw [List.length_append] at hlen
  rw [← ahead_ofSource]
  refine ⟨hlen ▸ Nat.le_add_right .., hpast.trans ?_⟩
  exact Location.past_eq_inText config.location (hlen ▸ Nat.le_add_right ..)

/-- **The tokens of a window** start where the characters of the window say. -/
theorem reach_ofSource (hstart : config.start ≤ config.stopIn text)
    (hstop : config.stopIn text ≤ text.length) :
    (∀ i, (ofSource (Cursor.atStart (config.window hstart hstop)) config).reach i ≤
      ((text.drop config.start).take (config.stopIn text - config.start)).length) ∧
      ∀ i token,
        (ofSource (Cursor.atStart (config.window hstart hstop)) config).tokens[i]? = some token →
        token.location = config.location.inText
          ((text.drop config.start).take (config.stopIn text - config.start))
          ((ofSource (Cursor.atStart (config.window hstart hstop)) config).reach i) := by
  refine ⟨fun i => ?_, fun i token htoken => ?_⟩
  · obtain ⟨u, hrun, -⟩ := exists_run_of_tokens_eq (List.take_append_drop i _).symm
    exact hrun.location_eq_inText.1
  · obtain ⟨hlt, rfl⟩ := List.getElem?_eq_some_iff.mp htoken
    have hsplit := (List.take_append_drop i
      (ofSource (Cursor.atStart (config.window hstart hstop)) config).tokens).symm
    rw [List.drop_eq_getElem_cons hlt] at hsplit
    obtain ⟨u, lx, hbefore, -, heq, -⟩ := exists_run_of_tokens_eq_cons hsplit
    rw [← heq]
    exact hbefore.location_eq_inText.2

/-- What a run consumes is what the tracker counts. -/
theorem Run.tracker_eq {t u : Tokenizer Cursor} {tokens : List Token} (h : Run t tokens u)
    (hi : t.ClosesAhead) :
    u.tracker =
      t.tracker.advance (tokens.flatMap fun token => token.text.toList).length t.source.ahead := by
  induction h with
  | done t => rw [List.flatMap_nil, List.length_nil, Tracker.advance_eq, Location.past_zero]
  | step head _ ih =>
    obtain ⟨lx, hlx, rfl, rfl⟩ := next?_eq_some_iff.mp head
    rw [ih (closesAhead_after hlx), ahead_after, List.flatMap_cons, List.length_append,
      length_text_token (length_le_ahead hi hlx), Tracker.advance_add]
    rfl

/-- Behind a run from the beginning of a window, the place that is counted is placed. -/
theorem Run.currentM_eq {m : Type → Type} [Monad m] [Counting m] {tokens : List Token}
    {v : Tokenizer Cursor}
    (h : Run (ofSource (Cursor.atStart (config.window hstart hstop)) config) tokens v) :
    (v.tracker.currentM : m Location) = config.location.withinM (first.past
      (tokens.flatMap fun token => token.text.toList).length
      ((text.drop config.start).take (config.stopIn text - config.start))) := by
  rw [h.tracker_eq (closesAhead_ofSource _ config), Tracker.advance_eq, ahead_ofSource]
  rfl

/-- The next token stops where its location does. -/
theorem lexNext?_of_currentM_eq_none {u : Tokenizer Cursor} {t : Tokenizer Checked}
    (h : Tracks Checked.Follows (· ≤ maxPosition) u t) (hi : u.ClosesAhead)
    (hmore : u.source.ahead ≠ [])
    (hstops : (u.tracker.currentM : Machine .checked Location) = Machine.ofOption none) :
    (t.lexNext? : Machine .checked (Option (Token × Tokenizer Checked))) =
      Machine.ofOption none := by
  obtain ⟨lx, hlx⟩ := Option.ne_none_iff_exists'.mp (mt lexeme?_eq_none_iff.mp hmore)
  obtain ⟨next, -, heq⟩ := exists_lexNext?_eq (Checked.faithful .checked) h hi hlx
  rw [heq, hstops]
  rfl

end Tokenizer

end StyleLex
