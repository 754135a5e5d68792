import StyleLex.Chars.Lemmas
import StyleLex.Proofs.Faithful
import StyleLex.Proofs.Locality

/-!
# Proofs/Stepwise — the lexer that goes call by call gives the measured tokens

Over a source that behaves like a cursor, `lexNext?` gives the token that `next?` measures, and
leaves the tokenizer behind it (`lexNext?_gives`).  So what is proved of measured tokens holds of
the calls, and since the source need only behave where it is asked rightly, the calls are asked
rightly.

There is one lemma for each production.  It follows the calls from `u`, where the token starts: what
is consumed so far is a `past`, and what is counted is measured in the characters ahead.  In the end
the token is the one that is measured there (`Cuts`).  `Attempted` is the same for `lexAttempt`,
which may leave the token to the operator after it has consumed the first of two marks.

The location is computed once, before anything is consumed, and this is the only step that may not
succeed (`exists_lexNext?_eq`).
-/

namespace StyleLex

namespace Tokenizer

open Lexeme

variable {σ : Type} {R : σ → Cursor → Prop} {Fits : Nat → Prop}

/-! ## The token that is cut -/

/-- A measured token that begins at the next character, its positions not moved yet. -/
def draft (u : Tokenizer Cursor) (loc : Location) (lx : Lexeme) : Token where
  kind := lx.kind
  start := u.source.position
  stop := u.source.position + lx.length
  text := String.ofList (u.source.ahead.take lx.length)
  location := loc
  payload := lx.payload.map (Span.cut u.source.ahead)

/-- Moved by the offset, a draft is the measured token at the given location. -/
theorem shifted_draft {u : Tokenizer Cursor} {lx : Lexeme} (h : lx.length ≤ u.source.ahead.length)
    (loc : Location) :
    (u.draft loc lx).shifted u.config.positionOffset = { u.token lx with location := loc } := by
  rw [token_eq h]
  rfl

/-- **A measured token is cut**: the token is given, and the tokenizer behind it. -/
structure Cuts (R : σ → Cursor → Prop) (Fits : Nat → Prop) (u : Tokenizer Cursor) (loc : Location)
    (lx : Lexeme) (given : Token × Tokenizer σ) : Prop where
  token_eq : given.1 = u.draft loc lx
  tracks : Tracks R Fits (u.after lx) given.2

variable {m : Type → Type} [Monad m] [Counting m] [Reader σ] [Source m σ] [Scanner m σ]
  [LawfulMonad m] (hf : Source.Faithful m R Fits) {u : Tokenizer Cursor} {t : Tokenizer σ}
  {loc : Location}

include hf

/-- What has been consumed since the token started is its text. -/
theorem cutFrom_eq {n : Nat} {flushing : Bool} (h : Tracks R Fits (u.past n flushing) t)
    (hle : n ≤ u.source.ahead.length) (kind : Kind) (loc : Location) (payload : Payload String) :
    t.cutFrom kind u.source.position loc payload =
      (pure
        { kind
          start := u.source.position
          stop := u.source.position + n
          text := String.ofList (u.source.ahead.take n)
          location := loc
          payload } : m Token) := by
  have htext := slice_eq (u := u) hf h (window_past u n flushing) (Nat.zero_le n) hle
  rw [Span.cut, List.drop_zero, Nat.sub_zero, Nat.add_zero] at htext
  rw [cutFrom, tell_past_eq hf h hle, htext, pure_bind]

omit [LawfulMonad m] hf [Monad m] [Counting m] [Reader σ] [Source m σ] [Scanner m σ] in
/-- A token that is flushed while it is consumed, or not at all. -/
theorem tracks_after {n : Nat} {flushing : Bool} (hopen : u.closing = false)
    (h : Tracks R Fits (u.past n flushing) t) (kind : Kind) (payload : Payload Span) :
    Tracks R Fits (u.after
      { kind, length := n, payload, release := if flushing then .consuming else .never }) t := by
  have hafter : u.after
      { kind, length := n, payload, release := if flushing then .consuming else .never } =
        u.past n flushing := by
    obtain ⟨s, config, tracker, closing⟩ := u
    obtain rfl := hopen
    cases flushing <;> rfl
  exact hafter ▸ h

/-- **A token is cut behind what is consumed.** -/
theorem give_gives {n : Nat} (h : Tracks R Fits (u.past n) t) (hopen : u.closing = false)
    (hle : n ≤ u.source.ahead.length) (kind : Kind) (payload : Payload Span) :
    Gives (t.give kind u.source.position loc (payload.map (Span.cut u.source.ahead)) :
        m (Token × Tokenizer σ))
      (Cuts R Fits u loc { kind, length := n, payload }) := by
  rw [give, cutFrom_eq hf h hle, pure_bind]
  exact gives_pure ⟨rfl, tracks_after hopen h kind payload⟩

/-- **A token is flushed when it is complete.** -/
theorem flushed_gives {n : Nat} (h : Tracks R Fits (u.past n) t) (hopen : u.closing = false)
    (hle : n ≤ u.source.ahead.length) (kind : Kind) (payload : Payload Span) :
    Gives (t.flushed (u.draft loc { kind, length := n, payload }) : m (Token × Tokenizer σ))
      (Cuts R Fits u loc { kind, length := n, payload, release := .complete }) := by
  refine (hf.flush_gives h.source (u.source.position + n)).bind fun source' hR => ?_
  refine gives_pure ⟨rfl, ?_⟩
  have hposition : (u.past n).source.position = u.source.position + n := position_past hle
  rw [← hposition] at hR
  obtain ⟨s, config, tracker, closing⟩ := u
  obtain rfl := hopen
  exact ⟨hR, h.config_eq, h.tracker_eq, h.closing_eq, h.room⟩

theorem giveFlushed_gives {n : Nat} (h : Tracks R Fits (u.past n) t) (hopen : u.closing = false)
    (hle : n ≤ u.source.ahead.length) (kind : Kind) (payload : Payload Span) :
    Gives (t.giveFlushed kind u.source.position loc (payload.map (Span.cut u.source.ahead)) :
        m (Token × Tokenizer σ))
      (Cuts R Fits u loc { kind, length := n, payload, release := .complete }) := by
  rw [giveFlushed, cutFrom_eq hf h hle, pure_bind]
  exact flushed_gives hf h hopen hle kind payload

/-- **A token of the next characters.** -/
theorem lexAhead_gives (h : Tracks R Fits u t) (hopen : u.closing = false) {n : Nat}
    (hle : n ≤ u.source.ahead.length) (kind : Kind) (flushing : Bool) (payload : Payload Span) :
    Gives (t.lexAhead kind n flushing u.source.position loc
        (payload.map (Span.cut u.source.ahead)) : m (Token × Tokenizer σ))
      (Cuts R Fits u loc
        { kind, length := n, payload, release := if flushing then .consuming else .never }) := by
  refine (consume_gives hf h hle flushing).bind fun t' h' => ?_
  rw [give, cutFrom_eq hf h' hle, pure_bind]
  exact gives_pure ⟨rfl, tracks_after hopen h' kind payload⟩

/-! ## Comments -/

/-- **A line comment** goes up to the end of the line, and its value leaves the two slashes out. -/
theorem lexLineComment_gives (h : Tracks R Fits u t) (hopen : u.closing = false) {cs : List Char}
    (hcs : u.source.ahead = '/' :: '/' :: cs) :
    Gives (t.lexLineComment u.source.position loc : m (Token × Tokenizer σ))
      (Cuts R Fits u loc (lineComment cs)) := by
  have hlen : u.source.ahead.length = cs.length + 2 := congrArg List.length hcs
  have hrest : (u.past 2).source.ahead = cs := by rw [ahead_past, hcs]; rfl
  have hle : 2 + Extent.line cs ≤ u.source.ahead.length := by
    have := Extent.line_le cs
    omega
  refine (consume_gives hf h (by omega) false).bind fun t₁ h₁ => ?_
  refine (consumeWhile_gives hf h₁ _).bind ?_
  rintro ⟨value, t₂⟩ ⟨-, h₂⟩
  rw [hrest, past_past] at h₂
  rw [tell_past_eq hf h₁ (by omega)]
  simp only
  rw [sliceFrom_eq hf h₂ hle (Nat.le_add_right ..), pure_bind]
  exact give_gives hf h₂ hopen hle .comment (.text ⟨2, 2 + Extent.line cs⟩)

/-- The first half of a comment remembers whether the `*/` follows. -/
theorem cutHalf_gives {n : Nat} (h : Tracks R Fits (u.past n) t) (hle : n ≤ u.source.ahead.length)
    (closed : Bool) (span : Span) :
    Gives (t.cutHalf closed (Span.cut u.source.ahead span) u.source.position loc :
        m (Token × Tokenizer σ))
      (Cuts R Fits u loc
        { kind := .comment, length := n, payload := .text span, opensComment := closed }) := by
  have h' : Tracks R Fits (past { u with closing := closed } n) { t with closing := closed } :=
    h.withClosing closed
  rw [cutHalf, give, cutFrom_eq hf h' hle, pure_bind]
  exact gives_pure ⟨rfl, h'⟩

/-- A comment in one token has its `*/` consumed, and is flushed after it has been cut. -/
theorem cutWhole_gives {n : Nat} (h : Tracks R Fits (u.past n) t) (hopen : u.closing = false)
    {closed : Bool} (hle : n + (if closed then 2 else 0) ≤ u.source.ahead.length) (span : Span) :
    Gives (t.cutWhole closed (Span.cut u.source.ahead span) u.source.position loc :
        m (Token × Tokenizer σ))
      (Cuts R Fits u loc
        { kind := .comment
          length := n + if closed then 2 else 0
          payload := .text span
          release := .complete }) := by
  have hleft : (if closed then 2 else 0) ≤ (u.past n).source.ahead.length := by
    rw [ahead_past, List.length_drop]
    omega
  refine (consumeIf_gives hf h hleft).bind fun t₁ h₁ => ?_
  rw [past_past] at h₁
  exact giveFlushed_gives hf h₁ hopen hle .comment (.text span)

/-- **A block comment** is cut into halves or not, as the options say. -/
theorem lexBlockComment_gives (h : Tracks R Fits u t) (hopen : u.closing = false) {cs : List Char}
    (hcs : u.source.ahead = '/' :: '*' :: cs) :
    Gives (t.lexBlockComment u.source.position loc : m (Token × Tokenizer σ))
      (Cuts R Fits u loc (Lexeme.blockComment u.config.options cs)) := by
  have hlen : u.source.ahead.length = cs.length + 2 := congrArg List.length hcs
  have hrest : (u.past 2).source.ahead = cs := by rw [ahead_past, hcs]; rfl
  have hinside := Extent.blockComment_le cs
  have hle : 2 + Extent.blockComment cs ≤ u.source.ahead.length := by omega
  refine (consume_gives hf h (by omega) false).bind fun t₁ h₁ => ?_
  refine (consumeCommentFrom_gives hf h₁ (lt_rounds hf h₁)).bind ?_
  rintro ⟨closed, t₂⟩ ⟨rfl, h₂⟩
  rw [hrest, past_past] at h₂
  rw [tell_past_eq hf h₁ (by omega), hrest]
  simp only
  rw [sliceFrom_eq hf h₂ hle (Nat.le_add_right ..), pure_bind, h₂.config_eq, Lexeme.blockComment]
  change Gives (if u.config.options.commentMarkers = true then _ else _) _
  split
  · exact cutHalf_gives hf h₂ hle _ _
  · refine (cutWhole_gives hf h₂ hopen ?_ ⟨2, 2 + Extent.blockComment cs⟩).imp ?_
    · have := @Extent.blockComment_add_two_le cs
      simp only [decide_eq_true_eq]
      split <;> omega
    · simp only [decide_eq_true_eq]
      exact fun given h => h

/-- A slash begins a comment only with a second mark behind it. -/
theorem lexComment?_gives (h : Tracks R Fits u t) (hopen : u.closing = false) {cs : List Char}
    (hcs : u.source.ahead = '/' :: cs) :
    Gives (t.lexComment? u.source.position loc : m (Option (Token × Tokenizer σ)))
      (Option.Rel (Cuts R Fits u loc) (comment? u.config.options cs)) := by
  rw [lexComment?, look_one_eq hf h hcs, pure_bind]
  by_cases hline : cs.head? = some '/'
  · obtain ⟨ds, rfl⟩ := List.head?_eq_some_iff.mp hline
    exact (lexLineComment_gives hf h hopen hcs).map fun _ hcuts => .some hcuts
  by_cases hblock : cs.head? = some '*'
  · obtain ⟨ds, rfl⟩ := List.head?_eq_some_iff.mp hblock
    exact (lexBlockComment_gives hf h hopen hcs).map fun _ hcuts => .some hcuts
  rw [comment?_of_ne hline hblock]
  split
  · next heq => exact absurd heq hline
  · next heq => exact absurd heq hblock
  · exact gives_pure .none

/-- **The `*/` that waits** is the two characters that stand ahead. -/
theorem lexCommentClose_gives (h : Tracks R Fits u t) {cs : List Char}
    (hcs : u.source.ahead = '*' :: '/' :: cs) :
    Gives (lexCommentClose { t with closing := false } u.source.position loc :
        m (Token × Tokenizer σ))
      (Cuts R Fits u loc commentClose) := by
  have hle : 2 ≤ u.source.ahead.length := by
    rw [hcs]
    exact Nat.le_add_left ..
  refine (consume_gives (u := { u with closing := false }) hf (h.withClosing false) hle false).bind
    fun t₁ h₁ => ?_
  refine (giveFlushed_gives (u := { u with closing := false }) hf h₁ rfl hle .comment .none).imp ?_
  exact fun given hcuts => ⟨hcuts.token_eq, hcuts.tracks⟩

/-! ## Numbers -/

omit hf [Monad m] [Counting m] [Reader σ] [Source m σ] [Scanner m σ] [LawfulMonad m] in
/-- A numeral is all that is consumed of it. -/
theorem drop_length_read (cs : List Char) :
    cs.drop (Numeral.read cs).1.chars.length = (Numeral.read cs).2 := by
  have h := Numeral.chars_read cs
  generalize Numeral.read cs = r at h
  rw [← h, List.drop_left]

/-- The digits are given as they are read, so that the numeral is the one in the text. -/
theorem consumeNumeral_gives (h : Tracks R Fits u t) :
    Gives (t.consumeNumeral : m (Numeral × Tokenizer σ)) fun given =>
      given.1 = (Numeral.read u.source.ahead).1 ∧
        Tracks R Fits (u.past (Numeral.read u.source.ahead).1.chars.length) given.2 := by
  refine (consumeWhile_gives hf h Chars.isDigit).bind ?_
  rintro ⟨whole, t₁⟩ ⟨rfl, h₁⟩
  have hrest : (u.past (Extent.run Chars.isDigit u.source.ahead)).source.ahead =
      u.source.ahead.dropWhile Chars.isDigit := by
    rw [ahead_past, Extent.dropWhile_eq_drop_run]
  simp only
  rw [look_zero_eq hf h₁, hrest, pure_bind]
  by_cases hpoint : (u.source.ahead.dropWhile Chars.isDigit).head? = some '.'
  · obtain ⟨rest, hcs⟩ := List.head?_eq_some_iff.mp hpoint
    have hplaces : (u.past (Extent.run Chars.isDigit u.source.ahead + 1)).source.ahead = rest := by
      rw [← past_past, ahead_past, hrest, hcs]
      rfl
    rw [if_pos hpoint, Numeral.read_point hcs]
    refine (consumeOne_gives hf h₁ (hrest.trans hcs)).bind fun t₂ h₂ => ?_
    rw [past_past] at h₂
    refine (consumeWhile_gives hf h₂ Chars.isDigit).bind ?_
    rintro ⟨places, t₃⟩ ⟨hgiven, h₃⟩
    rw [hplaces] at hgiven h₃
    rw [past_past] at h₃
    refine gives_pure ⟨by rw [hgiven], ?_⟩
    have hlen : Extent.run Chars.isDigit u.source.ahead + 1 + Extent.run Chars.isDigit rest =
        (Numeral.mk (u.source.ahead.takeWhile Chars.isDigit)
          (some (rest.takeWhile Chars.isDigit))).chars.length := by
      simp only [Numeral.chars, List.length_append, List.length_cons, Extent.run]
      omega
    exact hlen ▸ h₃
  · rw [if_neg hpoint, Numeral.read_no_point hpoint]
    exact gives_pure ⟨rfl, h₁⟩

/-- The unit is all the letters that follow, and is cut out behind the token. -/
theorem lexDimension_gives {n : Nat} {rest : List Char} (h : Tracks R Fits (u.past n) t)
    (hopen : u.closing = false) (hrest : (u.past n).source.ahead = rest)
    (hle : n + Extent.letters rest ≤ u.source.ahead.length) (value : Reading) :
    Gives (t.lexDimension value u.source.position loc : m (Token × Tokenizer σ))
      (Cuts R Fits u loc
        { kind := .dimension
          length := n + Extent.letters rest
          payload := .dimension value ⟨n, n + Extent.letters rest⟩
          release := .complete }) := by
  refine (consumeWhile_gives hf h Chars.isLetter).bind ?_
  rintro ⟨unit, t₁⟩ ⟨-, h₁⟩
  rw [hrest, past_past] at h₁
  have h₁ : Tracks R Fits (u.past (n + Extent.letters rest)) t₁ := h₁
  simp only
  rw [tell_past_eq hf h (Nat.le_of_add_right_le hle), cutFrom_eq hf h₁ hle, pure_bind]
  simp only
  rw [slice_eq (u := u) hf h₁ rfl (Nat.le_add_right ..) hle, pure_bind]
  exact flushed_gives hf h₁ hopen hle .dimension (.dimension value ⟨n, n + Extent.letters rest⟩)

/-- **A number, percentage or dimension**, with the sign that has been consumed before it. -/
theorem lexNumeric_gives (negative : Bool) (h : Tracks R Fits (u.past negative.toNat) t)
    (hopen : u.closing = false) (hsign : negative.toNat ≤ u.source.ahead.length) :
    Gives (t.lexNumeric negative u.source.position loc : m (Token × Tokenizer σ))
      (Cuts R Fits u loc (numeric negative (u.source.ahead.drop negative.toNat))) := by
  refine (consumeNumeral_gives hf h).bind ?_
  rintro ⟨numeral, t₁⟩ ⟨hnumeral, h₁⟩
  rw [ahead_past] at hnumeral h₁
  rw [past_past] at h₁
  have hrest := drop_length_read (u.source.ahead.drop negative.toNat)
  have hall := congrArg List.length (Numeral.chars_read (u.source.ahead.drop negative.toNat))
  rw [numeric]
  -- from here on only the numeral and what follows it matter
  generalize Numeral.read (u.source.ahead.drop negative.toNat) = r at hnumeral h₁ hrest hall
  obtain ⟨read, rest⟩ := r
  simp only at hnumeral h₁ hrest hall ⊢
  subst hnumeral
  rw [List.drop_drop] at hrest
  rw [List.length_append, List.length_drop] at hall
  have hahead : (u.past (negative.toNat + numeral.chars.length)).source.ahead = rest := by
    rw [ahead_past, hrest]
  rw [look_zero_eq hf h₁, hahead, pure_bind]
  by_cases hpercent : rest.head? = some '%'
  · obtain ⟨ds, rfl⟩ := List.head?_eq_some_iff.mp hpercent
    rw [if_pos hpercent, if_pos hpercent]
    rw [List.length_cons] at hall
    refine (consumeOne_gives hf h₁ hahead).bind fun t₂ h₂ => ?_
    rw [past_past] at h₂
    exact giveFlushed_gives hf h₂ hopen (by omega) .percentage (.number _)
  rw [if_neg hpercent, if_neg hpercent]
  have hletters := Extent.letters_le rest
  by_cases hletter : rest.head?.any Chars.isLetter
  · have hunit : Extent.letters rest ≠ 0 := by
      rw [Ne, Extent.letters_eq_zero_iff]
      simpa [Option.any_eq_true] using hletter
    rw [if_pos hletter, if_neg hunit]
    exact lexDimension_gives hf h₁ hopen hahead (by omega) (numeral.value negative)
  · have hunit : Extent.letters rest = 0 := by
      rw [Extent.letters_eq_zero_iff]
      simpa [Option.any_eq_false] using hletter
    rw [if_neg hletter, if_pos hunit]
    exact giveFlushed_gives hf h₁ hopen (by omega) .number (.number _)

/-! ## Marks -/

/-- A mark in front of a name: nothing is consumed if there is no name. -/
theorem lexMarked?_gives (h : Tracks R Fits u t) (hopen : u.closing = false) {mark : Char}
    {cs : List Char} (hcs : u.source.ahead = mark :: cs) (kind : Kind) (construct : Construct) :
    Gives (t.lexMarked? kind construct u.source.position loc :
        m (Option (Token × Tokenizer σ)))
      (Option.Rel (Cuts R Fits u loc) (counted? kind (construct.extent cs))) := by
  have hlen : u.source.ahead.length = cs.length + 1 := congrArg List.length hcs
  have hle := construct.extent_le cs
  rw [lexMarked?, hf.count_eq h.source (by omega), pure_bind, hcs, List.drop_one, List.tail_cons]
  cases hn : construct.extent cs with
  | zero => exact gives_pure .none
  | succ n =>
    rw [if_neg (Nat.succ_ne_zero n)]
    exact (lexAhead_gives hf h hopen (by omega) kind true .none).map fun _ hcuts => .some hcuts

/-- **What begins with `-`**, the marker before the number and the number before the name. -/
theorem lexMinus?_gives (h : Tracks R Fits u t) (hopen : u.closing = false) {cs : List Char}
    (hcs : u.source.ahead = '-' :: cs) :
    Gives (t.lexMinus? u.source.position loc : m (Option (Token × Tokenizer σ)))
      (Option.Rel (Cuts R Fits u loc) (minus? cs)) := by
  have hlen : u.source.ahead.length = cs.length + 1 := congrArg List.length hcs
  have hdrop : u.source.ahead.drop 1 = cs := by rw [hcs]; rfl
  rw [lexMinus?, looksAt_eq (n := 2) hf h (by omega) rfl, hdrop, pure_bind, minus?]
  simp only [decide_eq_true_eq]
  by_cases harrow : cs.take 2 = ['-', '>']
  · have hle := le_length_of_take_eq harrow
    rw [if_pos harrow, if_pos harrow]
    exact (lexAhead_gives hf h hopen (by simpa [hlen] using hle) .cdataClose true .none).map
      fun _ hcuts => .some hcuts
  rw [if_neg harrow, if_neg harrow, look_one_eq hf h hcs, pure_bind]
  by_cases hdigit : cs.head?.any Chars.isDigit
  · rw [if_pos hdigit, if_pos hdigit]
    refine (consumeOne_gives hf h hcs).bind fun t₁ h₁ => ?_
    refine (lexNumeric_gives hf true h₁ hopen (by rw [hlen]; exact Nat.le_add_left ..)).map ?_
    exact fun given hcuts => .some (hdrop ▸ hcuts)
  · rw [if_neg hdigit, if_neg hdigit]
    exact lexMarked?_gives hf h hopen hcs .identifier .name

theorem lexCdataOpen?_gives (h : Tracks R Fits u t) (hopen : u.closing = false) {cs : List Char}
    (hcs : u.source.ahead = '<' :: cs) :
    Gives (t.lexCdataOpen? u.source.position loc : m (Option (Token × Tokenizer σ)))
      (Option.Rel (Cuts R Fits u loc) (cdataOpen? cs)) := by
  have hlen : u.source.ahead.length = cs.length + 1 := congrArg List.length hcs
  rw [lexCdataOpen?, looksAt_eq (n := 3) hf h (by omega) rfl, hcs, List.drop_one, List.tail_cons,
    pure_bind, cdataOpen?]
  simp only [decide_eq_true_eq]
  by_cases hopens : cs.take 3 = ['!', '-', '-']
  · have hle := le_length_of_take_eq hopens
    rw [if_pos hopens, if_pos hopens]
    exact (lexAhead_gives hf h hopen (by simpa [hlen] using hle) .cdataOpen true .none).map
      fun _ hcuts => .some hcuts
  · rw [if_neg hopens, if_neg hopens]
    exact gives_pure .none

/-! ## Ranges of code points -/

/-- The end of a range counts with its `-`, or not at all. -/
theorem countRangeEnd_eq (h : Tracks R Fits u t) :
    ∃ n, t.countRangeEnd = (pure n : m Nat) ∧
      (if n != 0 then 1 + n else 0) = rangeEnd u.source.ahead := by
  rw [countRangeEnd, look_zero_eq hf h, pure_bind]
  by_cases hdash : u.source.ahead.head? = some '-'
  · obtain ⟨cs, hcs⟩ := List.head?_eq_some_iff.mp hdash
    rw [if_pos hdash, hf.count_eq h.source (by rw [hcs]; exact Nat.le_add_left ..), hcs,
      List.drop_one, List.tail_cons]
    refine ⟨_, rfl, ?_⟩
    rw [rangeEnd, Construct.extent]
    cases Extent.hexDigits cs <;> simp
  · rw [if_neg hdash, rangeEnd_of_ne hdash]
    exact ⟨0, rfl, rfl⟩

/-- **A range of code points** is consumed in two steps, its end being looked for in between. -/
theorem lexUnicodeRange?_gives (h : Tracks R Fits u t) (hopen : u.closing = false) {cs : List Char}
    (hcs : u.source.ahead = 'u' :: '+' :: cs) :
    Gives (t.lexUnicodeRange? u.source.position loc : m (Option (Token × Tokenizer σ)))
      (Option.Rel (Cuts R Fits u loc) (unicodeRange? u.source.ahead)) := by
  have hlen : u.source.ahead.length = cs.length + 2 := congrArg List.length hcs
  have hdrop : u.source.ahead.drop 2 = cs := by rw [hcs]; rfl
  have hfirst := Extent.hexDigits_le cs
  have hcount : Scanner.count t.source .hexDigits 2 = (pure (Extent.hexDigits cs) : m Nat) := by
    rw [hf.count_eq h.source (by omega), hdrop]
    rfl
  rw [lexUnicodeRange?, hcount, pure_bind, hcs]
  by_cases hzero : Extent.hexDigits cs = 0
  · rw [if_pos hzero]
    simp only [unicodeRange?, hzero]
    exact gives_pure .none
  · obtain ⟨n, hn⟩ := Nat.exists_eq_succ_of_ne_zero hzero
    -- the end of the range is measured behind its beginning, where it is also looked for
    have hlast := rangeEnd_le (cs.drop (n + 1))
    rw [List.length_drop] at hlast
    simp only [unicodeRange?, hn]
    rw [if_neg (Nat.succ_ne_zero n)]
    refine (consume_gives hf h (by omega) false).bind fun t₁ h₁ => ?_
    have hahead : (u.past (2 + (n + 1))).source.ahead = cs.drop (n + 1) := by
      rw [ahead_past, ← List.drop_drop, hdrop]
    obtain ⟨last, hlook, hend⟩ := countRangeEnd_eq hf h₁
    rw [hlook, pure_bind]
    rw [hahead] at hend
    refine (consumeIf_gives hf h₁ ?_).bind fun t₂ h₂ => ?_
    · rw [hend, ahead_past, List.length_drop]
      omega
    · rw [hend, past_past] at h₂
      exact (giveFlushed_gives hf h₂ hopen (by omega) .unicodeRange .none).map
        fun _ hcuts => .some hcuts

/-! ## Strings -/

/-- What is inside the quotes is cut out, whether or not a quote closes it. -/
theorem consumeQuoted_gives (h : Tracks R Fits u t) (q : Char) :
    Gives (t.consumeQuoted q : m (String × Tokenizer σ)) fun given =>
      given.1 = Span.cut u.source.ahead ⟨0, Extent.quoted q u.source.ahead⟩ ∧
        Tracks R Fits (u.past (Extent.quotedClosed q u.source.ahead)) given.2 := by
  refine (consumeQuotedFrom_gives hf h q (lt_rounds hf h)).bind ?_
  rintro ⟨stop, t₁⟩ ⟨rfl, h₁⟩
  have hslice := slice_eq (u := u) hf h₁ rfl (Nat.zero_le _) (Extent.quoted_le q u.source.ahead)
  rw [Nat.add_zero] at hslice
  rw [tell_eq_of_tracks hf h]
  simp only
  rw [hslice, pure_bind]
  exact gives_pure ⟨rfl, h₁⟩

/-- **A string** is measured from the character behind its quote. -/
theorem lexString_gives (h : Tracks R Fits u t) (hopen : u.closing = false) {q : Char}
    {cs : List Char} (hcs : u.source.ahead = q :: cs) :
    Gives (t.lexString q u.source.position loc : m (Token × Tokenizer σ))
      (Cuts R Fits u loc (Lexeme.quoted q cs)) := by
  have hlen : u.source.ahead.length = cs.length + 1 := congrArg List.length hcs
  have hrest : (u.past 1).source.ahead = cs := by rw [ahead_past, hcs]; rfl
  have hle := Extent.quotedClosed_le q cs
  refine (consumeOne_gives hf h hcs).bind fun t₁ h₁ => ?_
  refine (consumeQuoted_gives hf h₁ q).bind ?_
  rintro ⟨value, t₂⟩ ⟨rfl, h₂⟩
  rw [hrest, past_past] at h₂
  rw [ahead_past, ← Span.cut_shift, ← ahead_past u 1 false, hrest]
  exact give_gives hf h₂ hopen (by omega) .string (.text ⟨1, 1 + Extent.quoted q cs⟩)

/-! ## Names -/

/-- The value of a resource is the same piece of the text, quoted or not. -/
theorem consumeResource_gives (h : Tracks R Fits u t) :
    Gives (t.consumeResource : m (String × Tokenizer σ)) fun given =>
      given.1 = Span.cut u.source.ahead (resource u.source.ahead).1 ∧
        Tracks R Fits (u.past (resource u.source.ahead).2) given.2 := by
  rw [consumeResource, look_zero_eq hf h, pure_bind]
  have hbare : u.source.ahead.head?.filter Chars.isQuote = none →
      resource u.source.ahead = (⟨0, Extent.bare u.source.ahead⟩, Extent.bare u.source.ahead) := by
    intro hnone
    cases hcs : u.source.ahead with
    | nil => rfl
    | cons c cs =>
      have hquote : Chars.isQuote c = false := by simpa [hcs] using hnone
      rw [resource, if_neg (by simp [hquote])]
  cases hquote : u.source.ahead.head?.filter Chars.isQuote with
  | some q =>
    obtain ⟨hhead, hq⟩ := Option.filter_eq_some_iff.mp hquote
    obtain ⟨cs, hcs⟩ := List.head?_eq_some_iff.mp hhead
    have hrest : (u.past 1).source.ahead = cs := by rw [ahead_past, hcs]; rfl
    refine (consumeOne_gives hf h hcs).bind fun t₁ h₁ => ?_
    refine (consumeQuoted_gives hf h₁ q).imp ?_
    rintro ⟨value, t₂⟩ ⟨rfl, h₂⟩
    rw [past_past, hrest] at h₂
    rw [ahead_past, ← Span.cut_shift, ← ahead_past u 1 false, hrest, hcs, resource, if_pos hq]
    exact ⟨rfl, h₂⟩
  | none =>
    have hle := Extent.bare_le u.source.ahead
    rw [hbare hquote]
    refine (consumeWhile_gives hf h _).bind ?_
    rintro ⟨value, t₁⟩ ⟨-, h₁⟩
    have h₁ : Tracks R Fits (u.past (Extent.bare u.source.ahead)) t₁ := h₁
    have hslice := sliceFrom_eq hf h₁ hle (Nat.zero_le _)
    rw [Nat.add_zero] at hslice
    rw [tell_eq_of_tracks hf h]
    simp only
    rw [hslice, pure_bind]
    exact gives_pure ⟨rfl, h₁⟩

/-- **A resource** is measured from the character behind its parenthesis. -/
theorem lexUri_gives {n : Nat} (h : Tracks R Fits (u.past (n + 1)) t) (hopen : u.closing = false)
    (hle : n + 1 ≤ u.source.ahead.length) :
    Gives (t.lexUri (Span.cut u.source.ahead ⟨0, n⟩) u.source.position loc :
        m (Token × Tokenizer σ))
      (Cuts R Fits u loc (uri n (u.source.ahead.drop (n + 1)))) := by
  have hlen := uri_length_le n (u.source.ahead.drop (n + 1))
  rw [List.length_drop, uri] at hlen
  rw [uri]
  -- white space, the value, white space: three times what is ahead is dropped
  refine (consumeWhitespace_gives hf h).bind fun t₁ h₁ => ?_
  rw [past_past, ahead_past] at h₁
  have hbody : (u.past (n + 1 + Extent.whitespace (u.source.ahead.drop (n + 1)))).source.ahead =
      (u.source.ahead.drop (n + 1)).drop (Extent.whitespace (u.source.ahead.drop (n + 1))) := by
    rw [ahead_past, ← List.drop_drop]
  generalize Extent.whitespace (u.source.ahead.drop (n + 1)) = first at h₁ hbody hlen ⊢
  generalize (u.source.ahead.drop (n + 1)).drop first = body at hbody hlen ⊢
  refine (consumeResource_gives hf h₁).bind ?_
  rintro ⟨value, t₂⟩ ⟨rfl, h₂⟩
  rw [hbody, past_past] at h₂
  rw [hbody]
  have hafter : (u.past (n + 1 + first + (resource body).2)).source.ahead =
      body.drop (resource body).2 := by
    rw [ahead_past, ← List.drop_drop, ← ahead_past u _ false, hbody]
  refine (consumeWhitespace_gives hf h₂).bind fun t₃ h₃ => ?_
  rw [hafter, past_past] at h₃
  have hend : (u.past (n + 1 + first + (resource body).2 +
      Extent.whitespace (body.drop (resource body).2))).source.ahead =
        (body.drop (resource body).2).drop (Extent.whitespace (body.drop (resource body).2)) := by
    rw [ahead_past, ← List.drop_drop, ← ahead_past u _ false, hafter]
  rw [look_zero_eq hf h₃, hend, pure_bind]
  have hvalue : Span.cut body (resource body).1 =
      Span.cut u.source.ahead ((resource body).1.shift (n + 1 + first)) := by
    rw [Span.cut_shift, ← ahead_past u _ false, hbody]
  refine (consumeIf_gives hf h₃ ?_).bind fun t₄ h₄ => ?_
  · rw [hend]
    split
    · next hclose =>
      exact Nat.succ_le_of_lt (Extent.lt_length_of_head?_drop (by simpa using hclose))
    · exact Nat.zero_le _
  · simp only [past_past, beq_iff_eq] at h₄
    simp only at hlen
    rw [hvalue]
    exact give_gives hf h₄ hopen (by omega) .uri (.uri ⟨0, n⟩ _)

/-- **An identifier, function or resource**: the name decides which, once a parenthesis follows. -/
theorem lexNamed_gives (h : Tracks R Fits u t) (hopen : u.closing = false) :
    Gives (t.lexNamed u.source.position loc : m (Token × Tokenizer σ))
      (Cuts R Fits u loc (named u.source.ahead)) := by
  have hname := Extent.name_le u.source.ahead
  have hcount : Scanner.count t.source .name 0 = (pure (Extent.name u.source.ahead) : m Nat) := by
    rw [hf.count_eq h.source (Nat.zero_le _), List.drop_zero]
    rfl
  have hslice := slice_eq (u := u) hf h rfl (Nat.zero_le _) hname
  rw [Nat.add_zero] at hslice
  rw [lexNamed, hcount, pure_bind, hslice, pure_bind, look_eq hf h hname, pure_bind,
    ← List.head?_drop, named]
  by_cases hcall : (u.source.ahead.drop (Extent.name u.source.ahead)).head? = some '('
  · have hlt := Extent.lt_length_of_head?_drop hcall
    simp only [if_pos hcall]
    refine (consume_gives hf h hlt false).bind fun t₁ h₁ => ?_
    rw [Span.cut, String.toList_ofList, List.drop_zero, Nat.sub_zero]
    split
    · have huri : Gives (t₁.lexUri _ _ loc : m (Token × Tokenizer σ)) _ :=
        lexUri_gives hf h₁ hopen hlt
      rwa [Span.cut, List.drop_zero, Nat.sub_zero, ← List.tail_drop] at huri
    · exact give_gives hf h₁ hopen hlt .function .none
  · simp only [if_neg hcall]
    exact lexAhead_gives hf h hopen hname .identifier true .none

theorem lexRange?_gives (h : Tracks R Fits u t) (hopen : u.closing = false) :
    Gives (t.lexRange? u.source.position loc : m (Option (Token × Tokenizer σ)))
      (Option.Rel (Cuts R Fits u loc) (unicodeRange? u.source.ahead)) := by
  rw [lexRange?, looksAt_eq (n := 2) hf h (Nat.zero_le _) rfl, List.drop_zero, pure_bind]
  simp only [decide_eq_true_eq]
  by_cases hrange : u.source.ahead.take 2 = ['u', '+']
  · have hcs : u.source.ahead = 'u' :: '+' :: u.source.ahead.drop 2 := by
      have := List.take_append_drop 2 u.source.ahead
      rw [hrange] at this
      exact this.symm
    rw [if_pos hrange]
    exact lexUnicodeRange?_gives hf h hopen hcs
  · rw [if_neg hrange, unicodeRange?_of_ne hrange]
    exact gives_pure .none

theorem lexWord_gives (h : Tracks R Fits u t) (hopen : u.closing = false) :
    Gives (t.lexWord u.source.position loc : m (Token × Tokenizer σ))
      (Cuts R Fits u loc (word u.source.ahead)) := by
  refine (lexRange?_gives hf h hopen).bind fun range hrange => ?_
  rw [word]
  generalize unicodeRange? u.source.ahead = lx at hrange
  cases hrange with
  | some hcuts => exact gives_pure hcuts
  | none => exact lexNamed_gives hf h hopen

/-! ## Variables -/

/-- **A measured variable**: so many characters, with its name at a place in them. -/
structure Measures (cs : List Char) (lx : Lexeme) (given : Nat × Span) : Prop where
  lexeme_eq : lx =
    { kind := .variableName
      length := given.1
      payload := .text given.2
      release := .consuming }
  start_le_stop : given.2.start ≤ given.2.stop
  stop_le : given.2.stop ≤ given.1
  length_le : given.1 ≤ cs.length

/-- A variable is measured before anything is consumed. -/
theorem measureVariable?_gives (h : Tracks R Fits u t) {mark : Char} {cs : List Char}
    (hcs : u.source.ahead = mark :: cs) :
    Gives (t.measureVariable? : m (Option (Nat × Span)))
      (Option.Rel (Measures u.source.ahead) (variableName? cs)) := by
  have hlen : u.source.ahead.length = cs.length + 1 := congrArg List.length hcs
  rw [measureVariable?, look_one_eq hf h hcs, pure_bind]
  cases cs with
  | nil => exact gives_pure .none
  | cons c cs =>
    have hdrop : u.source.ahead.drop 2 = cs := by rw [hcs]; rfl
    have htwo : 2 ≤ u.source.ahead.length := by
      rw [hlen]
      exact Nat.le_add_left ..
    rw [List.length_cons] at hlen
    simp only [List.head?_cons]
    by_cases hbrace : c = '{'
    · subst hbrace
      have hrun := Extent.run_le (· != '}') cs
      rw [if_pos rfl, hf.run_eq h.source htwo, hdrop, pure_bind, look_eq hf h (by omega), pure_bind]
      rw [← List.head?_drop, ← List.drop_drop, hdrop, variableName?]
      cases hend : cs.drop (Extent.run (· != '}') cs) with
      | nil => exact gives_pure (.some ⟨rfl, Nat.le_add_right .., Nat.le_refl _, by omega⟩)
      | cons d ds =>
        have hlt := Extent.lt_length_of_head?_drop (congrArg List.head? hend)
        exact gives_pure (.some ⟨rfl, Nat.le_add_right .., Nat.le_add_right .., by omega⟩)
    rw [if_neg hbrace, variableName?_of_ne (by simpa using hbrace), Extent.letters]
    by_cases hletter : Chars.isLetter c
    · have hrun := Extent.run_le Chars.isLetter cs
      rw [if_pos hletter, hf.run_eq h.source htwo, hdrop, pure_bind, Extent.run_cons,
        if_pos hletter]
      -- the first letter was looked at by itself
      have hsize : 2 + Extent.run Chars.isLetter cs = 1 + (Extent.run Chars.isLetter cs + 1) := by
        omega
      rw [hsize]
      exact gives_pure (.some ⟨rfl, Nat.le_add_right .., Nat.le_refl _, by omega⟩)
    · rw [if_neg hletter, Extent.run_cons, if_neg hletter]
      exact gives_pure .none

/-- **A variable** has its name cut out by the distances that were measured. -/
theorem lexVariable?_gives (h : Tracks R Fits u t) (hopen : u.closing = false) {mark : Char}
    {cs : List Char} (hcs : u.source.ahead = mark :: cs) :
    Gives (t.lexVariable? u.source.position loc : m (Option (Token × Tokenizer σ)))
      (Option.Rel (Cuts R Fits u loc) (variableName? cs)) := by
  refine (measureVariable?_gives hf h hcs).bind fun given hgiven => ?_
  generalize variableName? cs = lx at hgiven
  cases hgiven with
  | none => exact gives_pure .none
  | @some _ given hgiven =>
    obtain ⟨n, span⟩ := given
    obtain ⟨rfl, hspan, hstop, hle⟩ := hgiven
    simp only at hspan hstop hle ⊢
    rw [slice_eq (u := u) hf h rfl hspan (Nat.le_trans hstop hle), pure_bind]
    exact (lexAhead_gives hf h hopen hle .variableName true (.text span)).map
      fun _ hcuts => .some hcuts

/-! ## What comes next -/

/-- **An attempt at a measured token**: it is given, or it is an operator of which all characters
but the last are consumed. -/
inductive Attempted (R : σ → Cursor → Prop) (Fits : Nat → Prop) (u : Tokenizer Cursor)
    (loc : Location) (lx : Lexeme) : Option Token × Tokenizer σ → Prop where
  | found {token : Token} {t : Tokenizer σ} (cuts : Cuts R Fits u loc lx (token, t)) :
      Attempted R Fits u loc lx (some token, t)
  | left {n : Nat} {t : Tokenizer σ} (operator_eq : lx = operator (n + 1))
      (lt : n < u.source.ahead.length) (tracks : Tracks R Fits (u.past n) t) :
      Attempted R Fits u loc lx (none, t)

omit hf [Counting m] [Reader σ] [Source m σ] [Scanner m σ] in
/-- An attempt that finds nothing leaves all to the operator. -/
theorem orElse_gives (h : Tracks R Fits u t) (hpos : 0 < u.source.ahead.length)
    {lx : Option Lexeme} {x : m (Option (Token × Tokenizer σ))}
    (hx : Gives x (Option.Rel (Cuts R Fits u loc) lx)) :
    Gives (t.orElse <$> x) (Attempted R Fits u loc (lx.getD (operator 1))) := by
  refine hx.map fun given hgiven => ?_
  cases hgiven with
  | some hcuts => exact .found hcuts
  | none => exact .left rfl hpos ((u.past_zero).symm ▸ h)

/-- The first of two marks is consumed, and the operator consumes the second. -/
theorem consumeMark_gives (h : Tracks R Fits u t) {mark : Char} {cs : List Char}
    (hcs : u.source.ahead = mark :: cs) :
    Gives ((none, ·) <$> t.consumeMark : m (Option Token × Tokenizer σ))
      (Attempted R Fits u loc
        ((if cs.head? = some '=' then some (operator 2) else none).getD (operator 1))) := by
  have hlen : u.source.ahead.length = cs.length + 1 := congrArg List.length hcs
  rw [consumeMark, look_one_eq hf h hcs, pure_bind]
  by_cases hequal : cs.head? = some '='
  · have hpos : 0 < cs.length := List.length_pos_of_mem (List.mem_of_head? hequal)
    rw [if_pos hequal, if_pos hequal]
    exact (consumeOne_gives hf h hcs).map fun _ h₁ => .left rfl (by omega) h₁
  · rw [if_neg hequal, if_neg hequal]
    exact (gives_pure h).map fun _ h₁ => .left rfl (by omega) ((u.past_zero).symm ▸ h₁)

/-- **What a mark begins**, or an operator. -/
theorem lexMark_gives (h : Tracks R Fits u t) (hopen : u.closing = false) {mark : Char}
    {cs : List Char} (hcs : u.source.ahead = mark :: cs) :
    Gives (t.lexMark mark u.source.position loc : m (Option Token × Tokenizer σ))
      (Attempted R Fits u loc ((marked? u.config.options mark cs).getD (operator 1))) := by
  have hpos : 0 < u.source.ahead.length := by
    rw [hcs]
    exact Nat.succ_pos _
  unfold lexMark marked?
  split
  · exact consumeMark_gives hf h hcs
  · exact consumeMark_gives hf h hcs
  · exact orElse_gives h hpos (lexComment?_gives hf h hopen hcs)
  · exact orElse_gives h hpos (lexMarked?_gives hf h hopen hcs .atIdentifier .identifier)
  · exact orElse_gives h hpos (lexMarked?_gives hf h hopen hcs .hashName .name)
  · exact orElse_gives h hpos (lexCdataOpen?_gives hf h hopen hcs)
  · exact orElse_gives h hpos (lexMinus?_gives hf h hopen hcs)
  · exact orElse_gives h hpos (lexVariable?_gives hf h hopen hcs)
  · -- a character that is none of the marks
    refine gives_pure (.left ?_ hpos ((u.past_zero).symm ▸ h))
    split <;> simp_all

/-- White space is counted first and consumed in one step. -/
theorem lexWhitespace_gives (h : Tracks R Fits u t) (hopen : u.closing = false) {c : Char}
    {cs : List Char} (hcs : u.source.ahead = c :: cs) (hc : Chars.isWhitespace c = true) :
    Gives (t.lexWhitespace u.source.position loc : m (Token × Tokenizer σ))
      (Cuts R Fits u loc
        { kind := .whitespace, length := 1 + Extent.whitespace cs, release := .consuming }) := by
  -- the count begins with `c`, the measure behind it
  have hcount : Scanner.count t.source .whitespace 0 =
      (pure (1 + Extent.whitespace cs) : m Nat) := by
    rw [hf.count_eq h.source (Nat.zero_le _), List.drop_zero, hcs, Construct.extent,
      Extent.whitespace, Extent.run_cons, if_pos hc, Nat.add_comm]
    rfl
  have hle := Extent.whitespace_le cs
  rw [lexWhitespace, hcount, pure_bind]
  refine lexAhead_gives hf h hopen ?_ .whitespace true .none
  rw [hcs, List.length_cons]
  omega

/-- **An attempt at what comes next** gives it, or leaves it to the operator. -/
theorem lexAttempt_gives (h : Tracks R Fits u t) (hopen : u.closing = false) {c : Char}
    {cs : List Char} (hcs : u.source.ahead = c :: cs) :
    Gives (t.lexAttempt c u.source.position loc : m (Option Token × Tokenizer σ))
      (Attempted R Fits u loc (leading u.config.options c cs)) := by
  have hlen : u.source.ahead.length = cs.length + 1 := congrArg List.length hcs
  rw [lexAttempt, leading, attempt?]
  split
  · next hc => exact (lexWhitespace_gives hf h hopen hcs hc).map fun _ hcuts => .found hcuts
  split
  · refine (lexNumeric_gives hf false ((u.past_zero).symm ▸ h) hopen (Nat.zero_le _)).map ?_
    rw [Bool.toNat_false, List.drop_zero, hcs]
    exact fun _ hcuts => .found hcuts
  split
  · exact (lexAhead_gives hf h hopen (by omega) .delimiter false .none).map
      fun _ hcuts => .found hcuts
  split
  · refine (lexWord_gives hf h hopen).map ?_
    rw [hcs]
    exact fun _ hcuts => .found hcuts
  split
  · exact (lexString_gives hf h hopen hcs).map fun _ hcuts => .found hcuts
  · exact lexMark_gives hf h hopen hcs

/-- **What comes next is given.** -/
theorem lexLeading_gives (h : Tracks R Fits u t) (hopen : u.closing = false) {c : Char}
    {cs : List Char} (hcs : u.source.ahead = c :: cs) :
    Gives (t.lexLeading c u.source.position loc : m (Token × Tokenizer σ))
      (Cuts R Fits u loc (leading u.config.options c cs)) := by
  refine (lexAttempt_gives hf h hopen hcs).bind fun given hgiven => ?_
  cases hgiven with
  | found hcuts => exact gives_pure hcuts
  | @left n t hoperator hlt h' =>
    rw [hoperator]
    have hleft : 1 ≤ (u.past n).source.ahead.length := by
      rw [ahead_past, List.length_drop]
      omega
    refine (consume_gives hf h' hleft false).bind fun t₁ h₁ => ?_
    rw [past_past] at h₁
    exact give_gives hf h₁ hopen hlt .operator .none

/-- **What waits or begins next** is given. -/
theorem lexPending_gives (h : Tracks R Fits u t) (hi : u.ClosesAhead) {lx : Lexeme}
    (hlx : u.lexeme? = some lx) :
    ∃ c, u.source.ahead.head? = some c ∧ ∀ loc : Location,
      Gives (t.lexPending c u.source.position loc : m (Token × Tokenizer σ))
        (Cuts R Fits u loc lx) := by
  obtain ⟨c, cs, hcs, hcases⟩ := lexeme?_cases hlx
  refine ⟨c, congrArg List.head? hcs, fun loc => ?_⟩
  rw [lexPending, h.closing_eq]
  rcases hcases with ⟨hclosing, rfl⟩ | ⟨hopen, rfl⟩
  · obtain ⟨ds, hds⟩ := hi hclosing
    rw [if_pos hclosing]
    exact lexCommentClose_gives hf h hds
  · rw [if_neg (by simp [hopen])]
    exact lexLeading_gives hf h hopen hcs

/-! ## The next token -/

/-- **Nothing comes next at the end.** -/
theorem lexNext?_of_none (h : Tracks R Fits u t) (hlx : u.lexeme? = none) :
    t.lexNext? = (pure none : m (Option (Token × Tokenizer σ))) := by
  rw [lexNext?, look_zero_eq hf h, lexeme?_eq_none_iff.mp hlx, pure_bind]
  rfl

/-- **The next token is the measured one**, at the location that is computed for it, and whatever
that is the tokenizer behind the token goes along. -/
theorem exists_lexNext?_eq (h : Tracks R Fits u t) (hi : u.ClosesAhead) {lx : Lexeme}
    (hlx : u.lexeme? = some lx) :
    ∃ next : Location → Tokenizer σ, (∀ loc, Tracks R Fits (u.after lx) (next loc)) ∧
      t.lexNext? = (do
        let loc ← u.tracker.currentM
        return some ({ u.token lx with location := loc }, next loc) :
          m (Option (Token × Tokenizer σ))) := by
  obtain ⟨c, hc, hgives⟩ := lexPending_gives hf h hi hlx
  -- whatever the location, the calls behind it give a token
  choose given heq hcuts using hgives
  refine ⟨fun loc => (given loc).2, fun loc => (hcuts loc).tracks, ?_⟩
  rw [lexNext?, look_zero_eq hf h, hc, pure_bind]
  simp only
  rw [tell_eq_of_tracks hf h, h.tracker_eq]
  refine bind_congr fun loc => ?_
  rw [heq loc, pure_bind, (hcuts loc).token_eq, h.config_eq,
    shifted_draft (length_le_ahead hi hlx)]

/-- **The next token is the measured one**, if its location is counted exactly. -/
theorem lexNext?_gives (h : Tracks R Fits u t) (hi : u.ClosesAhead) {lx : Lexeme}
    (hlx : u.lexeme? = some lx) (hcurrent : u.tracker.currentM = (pure u.location : m Location)) :
    Gives (t.lexNext? : m (Option (Token × Tokenizer σ))) fun given =>
      ∃ t', given = some (u.token lx, t') ∧ Tracks R Fits (u.after lx) t' := by
  obtain ⟨next, hnext, heq⟩ := exists_lexNext?_eq hf h hi hlx
  rw [heq, hcurrent, pure_bind]
  exact gives_pure ⟨next u.location, rfl, hnext u.location⟩

/-- **The next tokens are the measured ones**, if their locations are counted exactly: those of the
places where one of them starts. -/
theorem lexTake_gives (h : Tracks R Fits u t) (hi : u.ClosesAhead) (n : Nat)
    (hplace : ∀ i < n, i < u.tokens.length →
      u.tracker.origin.withinM (u.tracker.relative.past (u.reach i) u.source.ahead) =
        (pure (u.tracker.origin.within (u.tracker.relative.past (u.reach i) u.source.ahead)) :
          m Location)) :
    Gives (t.lexTake n : m (List Token × Tokenizer σ)) fun given =>
      given.1 = u.tokens.take n ∧ ∃ v, Run u given.1 v ∧ Tracks R Fits v given.2 := by
  induction n generalizing u t with
  | zero => exact gives_pure ⟨rfl, u, .done u, h⟩
  | succ n ih =>
    cases hlx : u.lexeme? with
    | none =>
      rw [lexTake, lexNext?_of_none hf h hlx, pure_bind, tokens_of_none hlx]
      exact gives_pure ⟨rfl, u, .done u, h⟩
    | some lx =>
      rw [tokens_of_some hlx, List.length_cons] at hplace
      have hcurrent := hplace 0 (Nat.succ_pos n) (Nat.succ_pos _)
      rw [reach_zero, Location.past_zero] at hcurrent
      refine (lexNext?_gives hf h hi hlx hcurrent).bind ?_
      rintro _ ⟨t', rfl, h'⟩
      refine (ih h' (closesAhead_after hlx) fun i hi' hlt => ?_).bind ?_
      · -- the place of a later token is counted from the end of this one
        have hnext := hplace (i + 1) (Nat.succ_lt_succ hi') (Nat.succ_lt_succ hlt)
        rw [reach_succ_of_some (length_le_ahead hi hlx) hlx, Location.past_add] at hnext
        have htracker := Tracker.advance_eq u.tracker lx.length u.source.ahead
        rw [ahead_after, show (u.after lx).tracker = _ from htracker]
        exact hnext
      · rintro ⟨tokens, t''⟩ ⟨rfl, v, hrun, h''⟩
        rw [tokens_of_some hlx, List.take_succ_cons]
        exact gives_pure ⟨rfl, v, .of_lexeme? hlx hrun, h''⟩

/-- **Going back to the beginning** goes along, if there is room to count the window. -/
theorem lexReset_gives (h : Tracks R Fits u t)
    (hroom : Location.first.Room Fits u.source.rewind.ahead.length) :
    Gives (t.lexReset : m (Tokenizer σ)) (Tracks R Fits (Id.run u.reset)) := by
  refine (hf.rewind_gives h.source).bind fun source' hR => ?_
  rw [h.tracker_eq]
  exact gives_pure ⟨hR, h.config_eq, rfl, rfl, hroom⟩

end Tokenizer

end StyleLex
