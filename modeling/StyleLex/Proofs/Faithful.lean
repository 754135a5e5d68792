import StyleLex.Proofs.Place
import StyleLex.Proofs.Truncation
import StyleLex.Tokenizer.Stepwise

/-!
# Proofs/Faithful — sources that behave like a cursor

A lexer that goes call by call sees no more of its source than what the calls give.  So two sources
are the same to it if they give the same wherever it asks.  `Source.Faithful m R Fits` says that of
a source and the cursors that `R` relates to it: looks that go no further than the end, consuming
what is left, cutting out what is in the window, and counting as far as the numbers fit, give what
the cursor gives and nothing else happens.  What other calls do is left open, so a lexer for which
this is enough never makes one.

`Gives x P` is how that is said of a computation: it is `pure a`, for an `a` with the property `P`.
`Tokenizer.Tracks u t` says that `t` stands where the tokenizer `u` of a cursor does.  A call keeps
it (`consume_gives`), and so does a loop of calls, by induction on its rounds
(`consumeWhileFrom_gives`, `consumeCommentFrom_gives`, `consumeQuotedFrom_gives`).
-/

namespace StyleLex

/-! ## Computations that only give a value -/

section Gives

variable {m : Type → Type} [Monad m] {α β : Type} {x : m α} {P Q : α → Prop}

/-- **A computation that only gives a value**, one with the property. -/
def Gives (x : m α) (P : α → Prop) : Prop := ∃ a, x = pure a ∧ P a

theorem gives_pure {a : α} (h : P a) : Gives (pure a : m α) P := ⟨a, rfl, h⟩

theorem Gives.imp (h : Gives x P) (hPQ : ∀ a, P a → Q a) : Gives x Q := by
  obtain ⟨a, rfl, ha⟩ := h
  exact ⟨a, rfl, hPQ a ha⟩

variable [LawfulMonad m]

/-- **One computation after the other.** -/
theorem Gives.bind {f : α → m β} {Q : β → Prop} (h : Gives x P)
    (hf : ∀ a, P a → Gives (f a) Q) : Gives (x >>= f) Q := by
  obtain ⟨a, rfl, ha⟩ := h
  rw [pure_bind]
  exact hf a ha

/-- What is computed from a value that is given is given. -/
theorem Gives.map {f : α → β} {Q : β → Prop} (h : Gives x P) (hf : ∀ a, P a → Q (f a)) :
    Gives (f <$> x) Q := by
  obtain ⟨a, rfl, ha⟩ := h
  rw [map_pure]
  exact gives_pure (hf a ha)

end Gives

/-! ## Counting -/

/-- **Counting is exact** as long as the numbers fit. -/
structure Counting.Exact (m : Type → Type) [Monad m] [Counting m] (Fits : Nat → Prop) : Prop where
  add_eq : ∀ {i j : Nat}, Fits (i + j) → Counting.add i j = (pure (i + j) : m Nat)
  sub_eq : ∀ {i j : Nat}, j ≤ i → Fits i → Counting.sub i j = (pure (i - j) : m Nat)
  fits_of_le : ∀ {i j : Nat}, i ≤ j → Fits j → Fits i

namespace Location

/-- **There is room to count** `n` characters more. -/
structure Room (Fits : Nat → Prop) (loc : Location) (n : Nat) : Prop where
  line : Fits (loc.line + n)
  column : Fits (loc.column + n)
  offset : Fits (loc.offset + n)

variable {m : Type → Type} [Monad m] [Counting m] {Fits : Nat → Prop} {loc : Location} {n : Nat}

theorem Room.of_le (hcount : Counting.Exact m Fits) (h : Room Fits loc n) {k : Nat} (hk : k ≤ n) :
    Room Fits loc k :=
  ⟨hcount.fits_of_le (Nat.add_le_add_left hk _) h.line,
    hcount.fits_of_le (Nat.add_le_add_left hk _) h.column,
    hcount.fits_of_le (Nat.add_le_add_left hk _) h.offset⟩

/-- Counting a character leaves room for one less. -/
theorem Room.after (hcount : Counting.Exact m Fits) (h : Room Fits loc (n + 1)) (c : Char)
    (next : Option Char) : Room Fits (loc.after c next) n := by
  unfold Location.after
  split
  · refine ⟨hcount.fits_of_le ?_ h.line, hcount.fits_of_le ?_ h.column,
      hcount.fits_of_le ?_ h.offset⟩ <;> simp only [afterBreak] <;> omega
  · refine ⟨hcount.fits_of_le ?_ h.line, hcount.fits_of_le ?_ h.column,
      hcount.fits_of_le ?_ h.offset⟩ <;> simp only [afterChar] <;> omega

/-- Room is used up one character at a time. -/
theorem Room.past (hcount : Counting.Exact m Fits) {k : Nat} (h : Room Fits loc (n + k))
    (cs : List Char) : Room Fits (loc.past n cs) k := by
  induction n generalizing loc cs with
  | zero =>
    rw [past_zero]
    rwa [Nat.zero_add] at h
  | succ n ih =>
    cases cs with
    | nil => exact h.of_le hcount (Nat.le_add_left ..)
    | cons c cs =>
      rw [Nat.succ_add] at h
      exact ih (h.after hcount c cs.head?) cs

variable [LawfulMonad m]

/-- **A character that there is room for** is counted exactly. -/
theorem afterM_eq (hcount : Counting.Exact m Fits) (h : Room Fits loc 1) (c : Char)
    (next : Option Char) : loc.afterM c next = (pure (loc.after c next) : m Location) := by
  rw [afterM, after, hcount.add_eq h.line, hcount.add_eq h.column, hcount.add_eq h.offset]
  split <;> simp only [pure_bind] <;> rfl

/-- On the first line the column continues that of the beginning. -/
theorem columnWithinM_eq (hcount : Counting.Exact m Fits) {origin : Location} (h : loc.Counts)
    (hcolumn : loc.line = 1 → Fits (origin.column + loc.column)) :
    origin.columnWithinM loc = (pure (origin.within loc).column : m Nat) := by
  rw [columnWithinM, within]
  by_cases hfirst : loc.line = 1
  · have hle : 1 ≤ origin.column + loc.column := Nat.le_add_left_of_le h.2
    rw [if_pos hfirst, if_pos hfirst, hcount.add_eq (hcolumn hfirst), pure_bind,
      hcount.sub_eq hle (hcolumn hfirst)]
  · rw [if_neg hfirst, if_neg hfirst]

/-- **A place is counted exactly** in the document if the sums on the way fit: those of line and
column before 1 is taken off again. -/
theorem withinM_eq (hcount : Counting.Exact m Fits) {origin : Location} (h : loc.Counts)
    (hline : Fits (origin.line + loc.line))
    (hcolumn : loc.line = 1 → Fits (origin.column + loc.column))
    (hoffset : Fits (origin.offset + loc.offset)) :
    origin.withinM loc = (pure (origin.within loc) : m Location) := by
  have hle : 1 ≤ origin.line + loc.line := Nat.le_add_left_of_le h.1
  rw [withinM, columnWithinM_eq hcount h hcolumn, hcount.add_eq hline, hcount.add_eq hoffset]
  simp only [pure_bind, hcount.sub_eq hle hline]
  rfl

end Location

/-! ## Sources -/

/-- **A source that behaves like the cursors it is related to**, as long as it is asked for what is
there and the numbers fit. -/
structure Source.Faithful (m : Type → Type) {σ : Type} [Monad m] [Counting m] [Reader σ]
    [Source m σ] [Scanner m σ] (R : σ → Cursor → Prop) (Fits : Nat → Prop) : Prop
    extends Counting.Exact m Fits where
  tell_eq : ∀ {s : σ} {c : Cursor}, R s c → Reader.tell s = c.position
  ahead_eq : ∀ {s : σ} {c : Cursor}, R s c → Reader.ahead s = c.ahead
  hasMore_eq : ∀ {s : σ} {c : Cursor}, R s c → ∀ {offset : Nat}, offset ≤ c.ahead.length →
    Scanner.hasMore s offset = (pure (decide (offset < c.ahead.length)) : m Bool)
  look_eq : ∀ {s : σ} {c : Cursor}, R s c → ∀ {offset : Nat}, offset ≤ c.ahead.length →
    Scanner.look s offset = (pure c.ahead[offset]? : m (Option Char))
  count_eq : ∀ {s : σ} {c : Cursor}, R s c → ∀ {offset : Nat}, offset ≤ c.ahead.length →
    ∀ k : Construct, Scanner.count s k offset = (pure (k.extent (c.ahead.drop offset)) : m Nat)
  run_eq : ∀ {s : σ} {c : Cursor}, R s c → ∀ {offset : Nat}, offset ≤ c.ahead.length →
    ∀ p : Char → Bool, Scanner.run s p offset = (pure (Extent.run p (c.ahead.drop offset)) : m Nat)
  slice_eq : ∀ {s : σ} {c : Cursor}, R s c → ∀ {i j : Nat}, c.window.start ≤ i → i ≤ j →
    j ≤ c.window.stop → Source.slice s i j = (pure (c.slice i j) : m String)
  advance_gives : ∀ {s : σ} {c : Cursor}, R s c → ∀ {n : Nat}, n ≤ c.ahead.length →
    ∀ flushing : Bool,
      Gives (Source.advance s n flushing : m σ) (R · (Id.run (c.advance n flushing)))
  flush_gives : ∀ {s : σ} {c : Cursor}, R s c → ∀ p : Nat,
    Gives (Source.flush s p : m σ) (R · (c.commit p))
  rewind_gives : ∀ {s : σ} {c : Cursor}, R s c → Gives (Source.rewind s : m σ) (R · c.rewind)

namespace Extent

open Chars

/-- Inside a string, a character stands alone or belongs to the one that it escapes. -/
theorem quoted_inside {q c : Char} (h : ¬(c = q ∨ isLineEnd c = true)) (cs : List Char) :
    0 < (if c = '\\' ∧ cs ≠ [] then 2 else 1) ∧
      (if c = '\\' ∧ cs ≠ [] then 2 else 1) ≤ (c :: cs).length ∧
      quoted q (c :: cs) = (if c = '\\' ∧ cs ≠ [] then 2 else 1) +
        quoted q ((c :: cs).drop (if c = '\\' ∧ cs ≠ [] then 2 else 1)) := by
  by_cases hb : c = '\\'
  · cases cs with
    | nil =>
      subst hb
      rw [quoted_dangling h]
      simp [quoted]
    | cons d cs => simp [hb, quoted_escape (hb ▸ h) rfl]
  · simp [hb, quoted_other h hb]

/-- What the inside of a string begins with belongs to the string with its quote too. -/
theorem quotedClosed_eq_add {q : Char} {cs : List Char} {n : Nat}
    (h : quoted q cs = n + quoted q (cs.drop n)) :
    quotedClosed q cs = n + quotedClosed q (cs.drop n) := by
  simp only [quotedClosed]
  rw [h, List.drop_drop]
  split <;> omega

end Extent

namespace Cursor

/-- Consuming nothing. -/
theorem skip_zero (c : Cursor) : c.skip 0 = c := by
  have hle := c.position_le_stop
  obtain ⟨w, p, k, _, _, _, _⟩ := c
  simp only [skip, mk.injEq, true_and, and_true]
  exact Nat.min_eq_left hle

/-- Consuming in two steps is consuming at once. -/
theorem skip_skip (c : Cursor) (m n : Nat) : (c.skip m).skip n = c.skip (m + n) := by
  have hle := c.position_le_stop
  simp only [skip, mk.injEq, true_and, and_true]
  omega

/-- Whether it flushes or not, a cursor has what is left behind the characters it consumes. -/
theorem ahead_run_advance (c : Cursor) (n : Nat) (flushing : Bool) :
    (Id.run (c.advance n flushing)).ahead = c.ahead.drop n := by
  cases flushing <;> exact c.ahead_skip n

end Cursor

namespace Tokenizer

/-! ## Going along with the tokenizer of a cursor -/

/-- The tokenizer behind the next `n` characters, and these flushed if `flushing`. -/
def past (u : Tokenizer Cursor) (n : Nat) (flushing : Bool := false) : Tokenizer Cursor :=
  { u with
    source := Id.run (u.source.advance n flushing)
    tracker := u.tracker.advance n u.source.ahead }

theorem past_zero (u : Tokenizer Cursor) : u.past 0 = u := by
  obtain ⟨s, config, tracker, closing⟩ := u
  have hskip : (Id.run (s.advance 0 false)) = s := s.skip_zero
  have hcount : tracker.advance 0 s.ahead = tracker := by
    rw [Tracker.advance_eq, Location.past_zero]
  rw [past, hskip, hcount]

/-- Consuming in steps is consuming at once. -/
theorem past_past (u : Tokenizer Cursor) (k n : Nat) : (u.past k).past n = u.past (k + n) := by
  have hskip : (u.source.skip k).skip n = u.source.skip (k + n) := u.source.skip_skip k n
  have hcount : (u.tracker.advance k u.source.ahead).advance n (u.source.skip k).ahead =
      u.tracker.advance (k + n) u.source.ahead := by
    rw [Cursor.ahead_skip, Tracker.advance_add]
  change Tokenizer.mk ((u.source.skip k).skip n) _
    ((u.tracker.advance k u.source.ahead).advance n (u.source.skip k).ahead) _ = _
  rw [hskip, hcount]
  rfl

theorem ahead_past (u : Tokenizer Cursor) (n : Nat) (flushing : Bool) :
    (u.past n flushing).source.ahead = u.source.ahead.drop n :=
  u.source.ahead_run_advance n flushing

theorem position_past {u : Tokenizer Cursor} {n : Nat} (h : n ≤ u.source.ahead.length) :
    (u.past n).source.position = u.source.position + n := Cursor.position_skip h

theorem window_past (u : Tokenizer Cursor) (n : Nat) (flushing : Bool) :
    (u.past n flushing).source.window = u.source.window := by
  cases flushing <;> rfl

variable {σ : Type} {R : σ → Cursor → Prop} {Fits : Nat → Prop}

/-- **A tokenizer goes along with that of a cursor**: its source is related to the cursor, and there
is room to count what is left. -/
structure Tracks (R : σ → Cursor → Prop) (Fits : Nat → Prop) (u : Tokenizer Cursor)
    (t : Tokenizer σ) : Prop where
  source : R t.source u.source
  config_eq : t.config = u.config
  tracker_eq : t.tracker = u.tracker
  closing_eq : t.closing = u.closing
  room : u.tracker.relative.Room Fits u.source.ahead.length

namespace Tracks

variable {u : Tokenizer Cursor} {t : Tokenizer σ}

theorem withClosing (h : Tracks R Fits u t) (b : Bool) :
    Tracks R Fits { u with closing := b } { t with closing := b } :=
  ⟨h.source, h.config_eq, h.tracker_eq, rfl, h.room⟩

end Tracks

section Calls

variable {m : Type → Type} [Monad m] [Counting m] [Reader σ] [Source m σ] [Scanner m σ]
  {u : Tokenizer Cursor} {t : Tokenizer σ} (hf : Source.Faithful m R Fits) (h : Tracks R Fits u t)

include hf h

theorem tell_eq_of_tracks : Reader.tell t.source = u.source.position := hf.tell_eq h.source

theorem look_eq {offset : Nat} (hle : offset ≤ u.source.ahead.length) :
    t.look offset = (pure u.source.ahead[offset]? : m (Option Char)) := hf.look_eq h.source hle

theorem look_zero_eq : t.look 0 = (pure u.source.ahead.head? : m (Option Char)) := by
  rw [look_eq hf h (Nat.zero_le _), List.head?_eq_getElem?]

theorem look_one_eq {c : Char} {cs : List Char} (hcs : u.source.ahead = c :: cs) :
    t.look 1 = (pure cs.head? : m (Option Char)) := by
  rw [look_eq hf h (by rw [hcs]; exact Nat.le_add_left ..), hcs, List.getElem?_cons_succ,
    List.head?_eq_getElem?]

/-- A loop has more rounds than characters are ahead. -/
theorem lt_rounds : u.source.ahead.length < t.rounds := by
  rw [rounds, hf.ahead_eq h.source]
  exact Nat.lt_succ_self _

omit h in
/-- **A piece of what was ahead** is cut out, wherever in the window the source has got to. -/
theorem slice_eq {v : Tokenizer Cursor} (h : Tracks R Fits v t)
    (hw : v.source.window = u.source.window) {i j : Nat} (hij : i ≤ j)
    (hj : j ≤ u.source.ahead.length) :
    Source.slice t.source (u.source.position + i) (u.source.position + j) =
      (pure (Span.cut u.source.ahead ⟨i, j⟩) : m String) := by
  have hstop : u.source.position + u.source.ahead.length = u.source.window.stop := by
    rw [Cursor.length_ahead]
    exact Nat.add_sub_cancel' u.source.position_le_stop
  have hsame : v.source.slice = u.source.slice := by
    unfold Cursor.slice
    rw [hw]
  rw [hf.slice_eq h.source (hw ▸ Nat.le_add_right_of_le u.source.start_le_position)
    (Nat.add_le_add_left hij _) (by rw [hw]; omega), hsame, Cursor.slice_position_add]

omit h in
/-- The position tells how much was consumed since the token started. -/
theorem tell_past_eq {n : Nat} {flushing : Bool} (h : Tracks R Fits (u.past n flushing) t)
    (hle : n ≤ u.source.ahead.length) : Reader.tell t.source = u.source.position + n := by
  rw [tell_eq_of_tracks hf h]
  cases flushing <;> exact position_past hle

omit h in
/-- A piece that ends before the next character is cut out of the text of the token. -/
theorem sliceFrom_eq {n : Nat} (h : Tracks R Fits (u.past n) t) (hle : n ≤ u.source.ahead.length)
    {i : Nat} (hi : i ≤ n) :
    t.sliceFrom (u.source.position + i) = (pure (Span.cut u.source.ahead ⟨i, n⟩) : m String) := by
  rw [sliceFrom, tell_past_eq hf h hle, slice_eq (u := u) hf h rfl hi hle]

variable [LawfulMonad m]

/-- Characters are expected one after the other, and none behind one that differs. -/
theorem looksAt_eq {offset : Nat} (hle : offset ≤ u.source.ahead.length) {expected : List Char}
    {n : Nat} (hn : expected.length = n) :
    t.looksAt offset expected =
      (pure (decide ((u.source.ahead.drop offset).take n = expected)) : m Bool) := by
  induction expected generalizing offset n with
  | nil =>
    subst hn
    simp [looksAt]
  | cons c cs ih =>
    subst hn
    rw [looksAt, look_eq hf h hle, pure_bind]
    by_cases hc : u.source.ahead[offset]? = some c
    · obtain ⟨hlt, hget⟩ := List.getElem?_eq_some_iff.mp hc
      rw [if_pos hc, ih hlt rfl, List.drop_eq_getElem_cons hlt, hget]
      simp
    · rw [if_neg hc]
      congr 1
      refine (decide_eq_false fun heq => hc ?_).symm
      have hhead := congrArg List.head? heq
      rwa [List.length_cons, List.head?_take, if_neg (Nat.succ_ne_zero _), List.head?_drop,
        List.head?_cons] at hhead

omit h in
/-- What is counted character by character is what a tracker counts. -/
theorem countFrom_eq {s : σ} {c : Cursor} (hs : R s c) {tracker : Tracker} {offset n : Nat}
    (hle : offset + n ≤ c.ahead.length) (hroom : tracker.relative.Room Fits n) :
    countFrom s tracker offset n =
      (pure (tracker.advance n (c.ahead.drop offset)) : m Tracker) := by
  induction n generalizing tracker offset with
  | zero =>
    rw [countFrom, Tracker.advance_eq, Location.past_zero]
  | succ n ih =>
    have hlt : offset < c.ahead.length := by omega
    have hstep : tracker.stepM (some c.ahead[offset]) c.ahead[offset + 1]? =
        (pure (tracker.step (some c.ahead[offset]) c.ahead[offset + 1]?) : m Tracker) := by
      rw [Tracker.stepM, Location.afterM_eq hf.toExact
        (hroom.of_le hf.toExact (Nat.le_add_left 1 n)), pure_bind]
      rfl
    rw [countFrom, hf.look_eq hs (by omega), hf.look_eq hs (by omega), pure_bind, pure_bind,
      List.getElem?_eq_getElem hlt, hstep, pure_bind, ih (by omega) (hroom.after hf.toExact _ _),
      List.drop_eq_getElem_cons hlt, Tracker.advance, List.head?_drop]

/-- **Consuming what is left** goes along. -/
theorem consume_gives {n : Nat} (hle : n ≤ u.source.ahead.length) (flushing : Bool) :
    Gives (t.consume n flushing : m (Tokenizer σ)) (Tracks R Fits (u.past n flushing)) := by
  have hroom := h.room
  obtain ⟨s', hs', hR⟩ := hf.advance_gives h.source hle flushing
  rw [consume, h.tracker_eq, countFrom_eq hf h.source (by rwa [Nat.zero_add])
    (hroom.of_le hf.toExact hle), pure_bind, hs', pure_bind]
  refine gives_pure ⟨hR, h.config_eq, ?_, h.closing_eq, ?_⟩
  · rw [List.drop_zero]
    rfl
  · rw [ahead_past, List.length_drop, past, Tracker.advance_eq]
    refine Location.Room.past hf.toExact ?_ _
    rwa [Nat.add_sub_cancel' hle]

theorem consumeOne_gives {c : Char} {cs : List Char} (hcs : u.source.ahead = c :: cs) :
    Gives (t.consumeOne : m (Tokenizer σ)) (Tracks R Fits (u.past 1)) := by
  refine consume_gives hf h ?_ false
  rw [hcs]
  exact Nat.le_add_left ..

theorem consumeIf_gives {wanted : Bool} {n : Nat}
    (hle : (if wanted then n else 0) ≤ u.source.ahead.length) :
    Gives (t.consumeIf wanted n : m (Tokenizer σ))
      (Tracks R Fits (u.past (if wanted then n else 0))) := by
  rw [consumeIf]
  cases wanted with
  | true => exact consume_gives hf h hle false
  | false => exact gives_pure ((u.past_zero).symm ▸ h)

/-! ## Loops

Each round consumes something, so a loop that has a round for each character and one more comes to
its end.  The induction is on the rounds. -/

/-- **A loop over a run** ends behind it. -/
theorem consumeWhileFrom_gives (p : Char → Bool) {rounds : Nat}
    (hrounds : u.source.ahead.length < rounds) :
    Gives (consumeWhileFrom p rounds t : m (List Char × Tokenizer σ)) fun given =>
      given.1 = u.source.ahead.takeWhile p ∧
        Tracks R Fits (u.past (Extent.run p u.source.ahead)) given.2 := by
  induction rounds generalizing u t with
  | zero => exact absurd hrounds (Nat.not_lt_zero _)
  | succ rounds ih =>
    rw [consumeWhileFrom, look_zero_eq hf h, pure_bind]
    cases hcs : u.source.ahead with
    | nil => exact gives_pure ⟨rfl, (u.past_zero).symm ▸ h⟩
    | cons c cs =>
      by_cases hc : p c
      · have hrun : Extent.run p (c :: cs) = 1 + Extent.run p cs := by
          rw [Extent.run, List.takeWhile_cons_of_pos hc, List.length_cons, Nat.add_comm]
          rfl
        have hrest : (u.past 1).source.ahead = cs := by rw [ahead_past, hcs, List.drop_one]; rfl
        simp only [List.head?_cons, if_pos hc]
        refine (consumeOne_gives hf h hcs).bind fun t' h' => ?_
        rw [hcs, List.length_cons] at hrounds
        refine (ih h' (by rw [hrest]; omega)).bind fun given hgiven => ?_
        rw [hrest, past_past] at hgiven
        refine gives_pure ⟨?_, hrun ▸ hgiven.2⟩
        rw [hgiven.1, List.takeWhile_cons_of_pos hc]
      · have hrun : Extent.run p (c :: cs) = 0 := by
          rw [Extent.run, List.takeWhile_cons_of_neg hc]
          rfl
        simp only [List.head?_cons, if_neg hc]
        refine gives_pure ⟨(List.takeWhile_cons_of_neg hc).symm, ?_⟩
        rw [hrun, past_zero]
        exact h

/-- A `*/` is seen by looking one character further than the `*`. -/
theorem closesComment_eq {c : Char} {cs : List Char} (hcs : u.source.ahead = c :: cs) :
    t.closesComment c = (pure (decide (c = '*' ∧ cs.head? = some '/')) : m Bool) := by
  rw [closesComment, look_one_eq hf h hcs, pure_bind]
  by_cases hc : c = '*' <;> simp [hc]

/-- **A loop over the inside of a block comment** ends before its `*/`, or at the end. -/
theorem consumeCommentFrom_gives {rounds : Nat} (hrounds : u.source.ahead.length < rounds) :
    Gives (consumeCommentFrom rounds t : m (Bool × Tokenizer σ)) fun given =>
      given.1 = decide (Extent.blockComment u.source.ahead < u.source.ahead.length) ∧
        Tracks R Fits (u.past (Extent.blockComment u.source.ahead)) given.2 := by
  induction rounds generalizing u t with
  | zero => exact absurd hrounds (Nat.not_lt_zero _)
  | succ rounds ih =>
    rw [consumeCommentFrom, look_zero_eq hf h, pure_bind]
    cases hcs : u.source.ahead with
    | nil => exact gives_pure ⟨rfl, (u.past_zero).symm ▸ h⟩
    | cons c cs =>
      simp only [List.head?_cons, closesComment_eq hf h hcs, pure_bind, decide_eq_true_eq]
      by_cases hcloses : c = '*' ∧ cs.head? = some '/'
      · rw [if_pos hcloses, Extent.blockComment, if_pos hcloses, past_zero]
        exact gives_pure ⟨rfl, h⟩
      · have hrest : (u.past 1).source.ahead = cs := by rw [ahead_past, hcs, List.drop_one]; rfl
        rw [if_neg hcloses, Extent.blockComment, if_neg hcloses]
        rw [hcs, List.length_cons] at hrounds
        refine (consumeOne_gives hf h hcs).bind fun t' h' => ?_
        refine (ih h' (by rw [hrest]; omega)).imp fun given hgiven => ?_
        rw [hrest, past_past] at hgiven
        -- whether the comment is closed is told by the room that is left behind its inside
        refine ⟨hgiven.1.trans (decide_eq_decide.mpr ?_), hgiven.2⟩
        rw [List.length_cons]
        omega

/-- A backslash goes with the character that follows it, whatever that is. -/
theorem insideSize_eq {c : Char} {cs : List Char} (hcs : u.source.ahead = c :: cs) :
    t.insideSize c = (pure (if c = '\\' ∧ cs ≠ [] then 2 else 1) : m Nat) := by
  have hmore : Scanner.hasMore t.source 1 = (pure (decide (cs ≠ [])) : m Bool) := by
    rw [hf.hasMore_eq h.source (by rw [hcs]; exact Nat.le_add_left ..), hcs]
    cases cs <;> simp
  rw [insideSize, hmore, pure_bind]
  by_cases hc : c = '\\' <;> simp [hc]

/-- **A loop over the inside of a string** ends behind its quote, or where it stops without one. -/
theorem consumeQuotedFrom_gives (q : Char) {rounds : Nat}
    (hrounds : u.source.ahead.length < rounds) :
    Gives (consumeQuotedFrom q rounds t : m (Nat × Tokenizer σ)) fun given =>
      given.1 = u.source.position + Extent.quoted q u.source.ahead ∧
        Tracks R Fits (u.past (Extent.quotedClosed q u.source.ahead)) given.2 := by
  induction rounds generalizing u t with
  | zero => exact absurd hrounds (Nat.not_lt_zero _)
  | succ rounds ih =>
    have htell := tell_eq_of_tracks hf h
    rw [consumeQuotedFrom, look_zero_eq hf h, pure_bind]
    cases hcs : u.source.ahead with
    | nil => exact gives_pure ⟨htell, (u.past_zero).symm ▸ h⟩
    | cons c cs =>
      simp only [List.head?_cons]
      by_cases hq : c = q
      · rw [if_pos hq, Extent.quotedClosed, Extent.quoted_stop (.inl hq)]
        refine (consumeOne_gives hf h hcs).bind fun t' h' => gives_pure ⟨htell, ?_⟩
        simpa [hq] using h'
      rw [if_neg hq]
      by_cases hline : Chars.isLineEnd c
      · rw [if_pos hline, Extent.quotedClosed, Extent.quoted_stop (.inr hline)]
        refine gives_pure ⟨htell, ?_⟩
        simpa [hq, past_zero] using h
      rw [if_neg hline, insideSize_eq hf h hcs, pure_bind]
      -- one character, or two with an escape: the rest is measured behind them either way
      obtain ⟨hpos, hle, hinside⟩ := Extent.quoted_inside (not_or.mpr ⟨hq, hline⟩) cs
      generalize (if c = '\\' ∧ cs ≠ [] then 2 else 1) = n at hpos hle hinside ⊢
      rw [← hcs] at hle hinside ⊢
      refine (consume_gives hf h hle false).bind fun t' h' => ?_
      refine (ih h' ?_).imp fun given hgiven => ?_
      · rw [ahead_past, List.length_drop]
        omega
      · rw [ahead_past, position_past hle, past_past, Nat.add_assoc, ← hinside,
          ← Extent.quotedClosed_eq_add hinside] at hgiven
        exact hgiven

/-- **The run of characters with a property** is consumed and given. -/
theorem consumeWhile_gives (p : Char → Bool) :
    Gives (t.consumeWhile p : m (List Char × Tokenizer σ)) fun given =>
      given.1 = u.source.ahead.takeWhile p ∧
        Tracks R Fits (u.past (Extent.run p u.source.ahead)) given.2 := by
  exact consumeWhileFrom_gives hf h p (lt_rounds hf h)

theorem consumeWhitespace_gives :
    Gives (t.consumeWhitespace : m (Tokenizer σ))
      (Tracks R Fits (u.past (Extent.whitespace u.source.ahead))) := by
  rw [consumeWhitespace, hf.count_eq h.source (Nat.zero_le _), pure_bind, List.drop_zero]
  exact consume_gives hf h (Extent.whitespace_le _) false

end Calls

end Tokenizer

end StyleLex
