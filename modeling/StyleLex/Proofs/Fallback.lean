import Mathlib.Tactic.MkIffOfInductiveProp
import StyleLex.Proofs.LongestName
import StyleLex.Proofs.Place
import StyleLex.Proofs.Recording

/-!
# Proofs/Fallback — what an operator is

A character is an operator if it begins nothing else.  `Unclaimed c cs` says when that is: `c` is of
no class that begins a token, and if it is a mark, what follows it is nothing that it marks
(`Unmarked`).  This is told from the characters alone, by the forms of `Proofs/Grammar` where names
are concerned.

`Lexeme.attempt?_eq_none_iff` is the law of the attempts, with one lemma for each mark.
`operator_is_fallback` is about the tokens: an operator consumes its one character, or the two of
`~=` and `|=`, and leaves nothing else behind.  A `u+` that no range of code points follows leaves
nothing behind either: the name is lexed as if there had been no attempt.
-/

namespace StyleLex

open Chars

namespace Grammar

/-- **A mark that marks nothing**, `cs` being what follows it. -/
@[mk_iff]
structure Unmarked (c : Char) (cs : List Char) : Prop where
  slash (h : c = '/') : ∀ d ∈ cs.head?, d ≠ '/' ∧ d ≠ '*'
  atSign (h : c = '@') : ¬∃ text, Identifier text ∧ text <+: cs
  hash (h : c = '#') : ¬∃ text, Name text ∧ text <+: cs
  dollar (h : c = '$') : ∀ d ∈ cs.head?, d ≠ '{' ∧ isLetter d = false
  less (h : c = '<') : ¬['!', '-', '-'] <+: cs
  minus (h : c = '-') : ¬['-', '>'] <+: cs ∧ (∀ d ∈ cs.head?, isDigit d = false) ∧
    ¬∃ text, Name text ∧ text <+: cs

/-- **A character that no token but an operator begins with**, `cs` being what follows it. -/
structure Unclaimed (c : Char) (cs : List Char) : Prop extends Unmarked c cs where
  whitespace : isWhitespace c = false
  digit : isDigit c = false
  delimiter : isDelimiter c = false
  nameStart : isNameStart c = false
  quote : isQuote c = false

/-- The number of characters of the operator that `c` is, `cs` being what follows it: `~=` and `|=`
have two. -/
def operatorLength (c : Char) (cs : List Char) : Nat :=
  if (c = '~' ∨ c = '|') ∧ cs.head? = some '=' then 2 else 1

end Grammar

namespace Extent

open Grammar

/-- **There is no name ahead** if no characters are one. -/
theorem name_eq_zero_iff {cs : List Char} :
    name cs = 0 ↔ ¬∃ text, Name text ∧ text <+: cs := by
  constructor
  · rintro hzero ⟨text, hname, rest, rfl⟩
    have hle := length_le_name (items_iff_singleItems.mp hname.items) rest
    rw [hzero] at hle
    exact hname.ne_nil (List.eq_nil_of_length_eq_zero (Nat.le_zero.mp hle))
  · intro hnone
    refine Nat.eq_zero_of_not_pos fun hpos => hnone ?_
    exact ⟨_, name_take_name hpos, List.take_prefix ..⟩

theorem begins_append {text : List Char} (h : Identifier text) (more : List Char) :
    Begins (text ++ more) := by
  cases h with
  | mk head tail =>
    rw [List.append_assoc]
    exact .of_item head _

/-- **There is no identifier ahead** if no characters are one. -/
theorem identifier_eq_zero_iff {cs : List Char} :
    identifier cs = 0 ↔ ¬∃ text, Identifier text ∧ text <+: cs := by
  constructor
  · rintro hzero ⟨text, hidentifier, more, rfl⟩
    have hpos := nameStart_pos_of_begins (begins_append hidentifier more)
    have hle := nameStart_le_identifier (text ++ more)
    omega
  · intro hnone
    refine Nat.eq_zero_of_not_pos fun hpos => hnone ?_
    exact ⟨_, identifier_take_identifier hpos, List.take_prefix ..⟩

end Extent

/-! ## The attempts -/

namespace Lexeme

open Extent Grammar

/-- An identifier behind a mark is not found if there is none. -/
theorem counted?_identifier_eq_none_iff {kind : Kind} {cs : List Char} :
    counted? kind (identifier cs) = none ↔ ¬∃ text, Identifier text ∧ text <+: cs :=
  counted?_eq_none_iff.trans identifier_eq_zero_iff

/-- A name behind a mark is not found if there is none. -/
theorem counted?_name_eq_none_iff {kind : Kind} {cs : List Char} :
    counted? kind (name cs) = none ↔ ¬∃ text, Name text ∧ text <+: cs :=
  counted?_eq_none_iff.trans name_eq_zero_iff

theorem comment?_eq_none_iff (o : Options) {cs : List Char} :
    comment? o cs = none ↔ ∀ d ∈ cs.head?, d ≠ '/' ∧ d ≠ '*' := by
  unfold comment?
  split
  · simp
  · simp
  · next hslash hstar =>
    refine iff_of_true rfl fun d hd => ?_
    obtain ⟨ds, rfl⟩ := List.head?_eq_some_iff.mp hd
    constructor
    · rintro rfl
      exact hslash ds rfl
    · rintro rfl
      exact hstar ds rfl

theorem variableName?_eq_none_iff {cs : List Char} :
    variableName? cs = none ↔ ∀ d ∈ cs.head?, d ≠ '{' ∧ isLetter d = false := by
  unfold variableName?
  split
  · simp
  · next hbrace =>
    refine counted?_eq_none_iff.trans (letters_eq_zero_iff.trans ?_)
    refine forall₂_congr fun d hd => (and_iff_right ?_).symm
    rintro rfl
    obtain ⟨ds, rfl⟩ := List.head?_eq_some_iff.mp hd
    exact hbrace ds rfl

theorem cdataOpen?_eq_none_iff {cs : List Char} :
    cdataOpen? cs = none ↔ ¬['!', '-', '-'] <+: cs := by
  rw [← take_length_eq_iff, cdataOpen?]
  split
  · next h => exact iff_of_false (Option.some_ne_none _) (not_not_intro h)
  · next h => exact iff_of_true rfl h

theorem minus?_eq_none_iff {cs : List Char} :
    minus? cs = none ↔ ¬['-', '>'] <+: cs ∧ (∀ d ∈ cs.head?, isDigit d = false) ∧
      ¬∃ text, Name text ∧ text <+: cs := by
  rw [← take_length_eq_iff, ← any_head?_iff, minus?]
  split
  · next harrow => exact iff_of_false (Option.some_ne_none _) fun h => h.1 harrow
  next harrow =>
  split
  · next hdigit => exact iff_of_false (Option.some_ne_none _) fun h => h.2.1 hdigit
  · next hdigit =>
    exact counted?_name_eq_none_iff.trans ⟨fun h => ⟨harrow, hdigit, h⟩, fun h => h.2.2⟩

/-- **The law of the marks**: all of them find nothing exactly if the mark marks nothing and makes
no pair with the next character, `~=` and `|=` being one operator each. -/
theorem marked?_eq_none_iff (o : Options) {c : Char} {cs : List Char} :
    marked? o c cs = none ↔ Unmarked c cs ∧ ¬((c = '~' ∨ c = '|') ∧ cs.head? = some '=') := by
  unfold marked?
  split
  · simp [unmarked_iff, comment?_eq_none_iff]
  · simp [unmarked_iff, atIdentifier?, counted?_identifier_eq_none_iff]
  · simp [unmarked_iff, hashName?, counted?_name_eq_none_iff]
  · simp [unmarked_iff, variableName?_eq_none_iff]
  · simp [unmarked_iff, minus?_eq_none_iff]
  · simp [unmarked_iff, cdataOpen?_eq_none_iff]
  · simp [unmarked_iff]
  · simp [unmarked_iff]
  · next hslash hat hhash hdollar hminus hless htilde hbar =>
    refine iff_of_true rfl ⟨?_, fun h => h.1.elim htilde hbar⟩
    exact ⟨(absurd · hslash), (absurd · hat), (absurd · hhash), (absurd · hdollar),
      (absurd · hless), (absurd · hminus)⟩

/-- A character of no class that begins a token can only be a mark. -/
theorem attempt?_of_classes (o : Options) {c : Char} {cs : List Char} (h : Unclaimed c cs) :
    attempt? o c cs = marked? o c cs := by
  simp [attempt?, h.whitespace, h.digit, h.delimiter, h.nameStart, h.quote]

/-- **The law of the attempts**: all of them find nothing exactly if the character is unclaimed and
makes no pair with the next one. -/
theorem attempt?_eq_none_iff (o : Options) {c : Char} {cs : List Char} :
    attempt? o c cs = none ↔
      Unclaimed c cs ∧ ¬((c = '~' ∨ c = '|') ∧ cs.head? = some '=') := by
  constructor
  · intro h
    obtain ⟨hw, hd, hdelim, hn, hq⟩ := of_attempt?_eq_none h
    have hmarked : marked? o c cs = none := by
      simpa [attempt?, hw, hd, hdelim, hn, hq] using h
    obtain ⟨hunmarked, hpair⟩ := (marked?_eq_none_iff o).mp hmarked
    exact ⟨⟨hunmarked, hw, hd, hdelim, hn, hq⟩, hpair⟩
  · rintro ⟨h, hpair⟩
    rw [attempt?_of_classes o h]
    exact (marked?_eq_none_iff o).mpr ⟨h.toUnmarked, hpair⟩

/-! ## Operators -/

/-- **An unclaimed character is an operator.** -/
theorem leading_of_unclaimed (o : Options) {c : Char} {cs : List Char} (h : Unclaimed c cs) :
    leading o c cs = operator (operatorLength c cs) := by
  rw [operatorLength, leading]
  split
  · next hpair =>
    obtain ⟨hc, heq⟩ := hpair
    rw [attempt?_of_classes o h]
    rcases hc with rfl | rfl
    all_goals exact congrArg (Option.getD · _) (if_pos heq)
  · next hpair => rw [(attempt?_eq_none_iff o).mpr ⟨h, hpair⟩, Option.getD_none]

theorem unclaimed_of_pair {c : Char} (hc : c = '~' ∨ c = '|') (cs : List Char) :
    Unclaimed c cs := by
  rcases hc with rfl | rfl
  all_goals exact ⟨by simp [unmarked_iff], by decide, by decide, by decide, by decide, by decide⟩

/-- **Only an unclaimed character is an operator.** -/
theorem Rule.unclaimed {o : Options} {c : Char} {cs : List Char} {lx : Lexeme}
    (h : Rule o c cs lx) (hk : lx.kind = .operator) : Unclaimed c cs := by
  cases h with
  | matchOperator hc => exact unclaimed_of_pair hc _
  | operator hc => exact ((attempt?_eq_none_iff o).mp hc).1
  | numeric | negative => exact absurd hk (numeric_kind_ne (by decide) _ _)
  | named => exact absurd hk (named_kind_ne (by decide) _)
  | blockComment cs =>
    rw [kind_blockComment] at hk
    cases hk
  | _ => cases hk

theorem kind_leading_eq_operator_iff (o : Options) {c : Char} {cs : List Char} :
    (leading o c cs).kind = .operator ↔ Unclaimed c cs :=
  ⟨(rule_leading o c cs).unclaimed, fun h => by rw [leading_of_unclaimed o h]; rfl⟩

/-- The characters of an operator end no line. -/
theorem not_isLineEnd_of_mem_take {c : Char} {cs : List Char} (h : Unclaimed c cs) :
    ∀ d ∈ (c :: cs).take (operatorLength c cs), isLineEnd d = false := by
  have hc : isLineEnd c = false := Bool.eq_false_iff.mpr fun hline => by
    have hw := isWhitespace_of_isLineEnd hline
    rw [h.whitespace] at hw
    cases hw
  rw [operatorLength]
  split
  · next hpair =>
    obtain ⟨ds, rfl⟩ := List.head?_eq_some_iff.mp hpair.2
    exact List.forall_mem_cons.mpr ⟨hc, List.forall_mem_singleton.mpr (by decide)⟩
  · exact List.forall_mem_singleton.mpr hc

/-- The name that a `u+` begins with is the `u`. -/
theorem named_of_plus (ds : List Char) :
    named ('u' :: '+' :: ds) = { kind := .identifier, length := 1, release := .consuming } := by
  have hplus : name ('+' :: ds) = 0 := by
    have hchar : ¬isName '+' = true := by decide
    have hitem : nameItem ('+' :: ds) = 0 := by
      rw [nameItem, if_neg hchar, escape_of_ne (by decide)]
    rw [name_eq, hitem, if_pos rfl]
  have hname : name ('u' :: '+' :: ds) = 1 := by
    rw [name_cons_of_isName (by decide), hplus]
  rw [named, hname]
  rfl

end Lexeme

/-! ## Tokens -/

namespace Tokenizer

open Grammar

/-- The tokenizer after `n` characters of a line, none of them flushed. -/
def alongLine (t : Tokenizer Cursor) (n : Nat) : Tokenizer Cursor where
  source := t.source.skip n
  config := t.config
  tracker := ⟨t.tracker.origin, t.tracker.relative.alongLine n⟩
  closing := false

/-- The same tokenizer, with all that it has consumed flushed. -/
def commit (t : Tokenizer Cursor) : Tokenizer Cursor where
  source := t.source.commit t.source.position
  config := t.config
  tracker := t.tracker
  closing := t.closing

/-- **A token in which no line ends** moves the tokenizer along its line. -/
theorem after_eq_alongLine {t : Tokenizer Cursor} {lx : Lexeme} (ho : lx.opensComment = false)
    (hle : lx.length ≤ t.source.ahead.length)
    (hline : ∀ d ∈ t.source.ahead.take lx.length, isLineEnd d = false) :
    t.after lx =
      if lx.release = .never then t.alongLine lx.length else (t.alongLine lx.length).commit := by
  rw [after, Tracker.advance_eq, Location.past_of_not_isLineEnd _ hle hline, ho, sourceAfter]
  split <;> rfl

/-- **What an operator is**, and the tokenizer after it. -/
theorem token_after_of_unclaimed {t : Tokenizer Cursor} {c : Char} {cs : List Char}
    (hcs : t.source.ahead = c :: cs) (h : Unclaimed c cs) :
    t.token (.operator (operatorLength c cs)) =
      { kind := .operator
        start := t.shift t.source.position
        stop := t.shift (t.source.position + operatorLength c cs)
        text := String.ofList ((c :: cs).take (operatorLength c cs))
        location := t.location
        payload := .none } ∧
    t.after (.operator (operatorLength c cs)) = t.alongLine (operatorLength c cs) := by
  have hlead := Lexeme.leading_of_unclaimed t.config.options h
  have hle := (Lexeme.leading_length t.config.options c cs).2
  rw [hlead] at hle
  refine ⟨token_leading hcs hlead, after_eq_alongLine rfl ?_ ?_⟩
  · rw [hcs]
    exact hle
  · rw [hcs]
    exact Lexeme.not_isLineEnd_of_mem_take h

/-- **What a `u+` begins that no range follows**: the name, as if there had been no attempt. -/
theorem token_after_of_plus {t : Tokenizer Cursor} {ds : List Char}
    (hcs : t.source.ahead = 'u' :: '+' :: ds) (hds : ∀ d ∈ ds.head?, isHexDigit d = false) :
    Lexeme.leading t.config.options 'u' ('+' :: ds) = Lexeme.named ('u' :: '+' :: ds) ∧
    t.token (Lexeme.named ('u' :: '+' :: ds)) =
      { kind := .identifier
        start := t.shift t.source.position
        stop := t.shift (t.source.position + 1)
        text := "u"
        location := t.location
        payload := .none } ∧
    t.after (Lexeme.named ('u' :: '+' :: ds)) = (t.alongLine 1).commit := by
  have hrange : ¬('u' = 'u' ∧ ∃ d es, '+' :: ds = '+' :: d :: es ∧ isHexDigit d = true) := by
    rintro ⟨-, d, es, heq, hd⟩
    obtain rfl := List.tail_eq_of_cons_eq heq
    rw [hds d rfl] at hd
    cases hd
  have hlead : Lexeme.leading t.config.options 'u' ('+' :: ds) = Lexeme.named ('u' :: '+' :: ds) :=
    (Lexeme.leading_of_isNameStart _ (by decide) (by decide) _).trans
      (Lexeme.word_of_no_range hrange)
  refine ⟨hlead, ?_⟩
  rw [Lexeme.named_of_plus] at hlead ⊢
  refine ⟨token_leading hcs hlead, after_eq_alongLine rfl ?_ ?_⟩
  · rw [hcs]
    exact Nat.le_add_left ..
  · rw [hcs]
    exact List.forall_mem_singleton.mpr (by decide)

/-- **Operators are the fallback.**  Wherever a token begins, it is an operator exactly if the next
character is unclaimed: it is of no class that begins a token, and what follows it is nothing that
it marks.  The operator has this one character, or the two of `~=` and `|=`; the place moves along
the line by as many, nothing is flushed, and there is no payload.  A recorder around the source sees
the same.  A `u+` that no hexadecimal digit follows leaves nothing behind either: token, tokenizer
and flushes are those of the name `u`. -/
theorem operator_is_fallback (t : Tokenizer Cursor) (flushes : List Nat) {c : Char}
    {cs : List Char} (hc : t.closing = false) (hcs : t.source.ahead = c :: cs) :
    ∃ token t' flushed, Id.run t.next? = some (token, t') ∧
      Id.run (t.recorded flushes).next? = some (token, t'.recorded (flushes ++ flushed)) ∧
      (token.kind = .operator ↔ Unclaimed c cs) ∧
      (token.kind = .operator →
        token = { kind := .operator
                  start := t.shift t.source.position
                  stop := t.shift (t.source.position + operatorLength c cs)
                  text := String.ofList ((c :: cs).take (operatorLength c cs))
                  location := t.location
                  payload := .none } ∧
        t' = t.alongLine (operatorLength c cs) ∧
        t'.source.position = t.source.position + operatorLength c cs ∧ flushed = []) ∧
      ∀ ds, c = 'u' → cs = '+' :: ds → (∀ d ∈ ds.head?, isHexDigit d = false) →
        Id.run (t.cut (Lexeme.named (c :: cs))) = (token, t') ∧
        Id.run ((t.recorded flushes).cut (Lexeme.named (c :: cs))) =
          (token, t'.recorded (flushes ++ flushed)) ∧
        token = { kind := .identifier
                  start := t.shift t.source.position
                  stop := t.shift (t.source.position + 1)
                  text := "u"
                  location := t.location
                  payload := .none } ∧
        t' = (t.alongLine 1).commit ∧
        t'.source.position = t.source.position + 1 ∧ flushed = [t.source.position + 1] := by
  have hlexeme := lexeme?_of_cons hcs hc
  have hposition : ∀ n ≤ (c :: cs).length, (t.source.skip n).position = t.source.position + n :=
    fun n hn => Cursor.position_skip (by rw [hcs]; exact hn)
  refine ⟨t.token (Lexeme.leading t.config.options c cs),
    t.after (Lexeme.leading t.config.options c cs),
    t.flushesWith (Lexeme.leading t.config.options c cs), ?_, ?_, ?_, ?_, ?_⟩
  · exact next?_of_cons hcs hc
  · rw [run_next?_recorded, hlexeme]
    rfl
  · exact Lexeme.kind_leading_eq_operator_iff _
  · intro hk
    have hunclaimed := (Lexeme.kind_leading_eq_operator_iff t.config.options).mp hk
    have hlead := Lexeme.leading_of_unclaimed t.config.options hunclaimed
    have hle := (Lexeme.leading_length t.config.options c cs).2
    obtain ⟨htoken, hafter⟩ := token_after_of_unclaimed hcs hunclaimed
    rw [hlead] at hle ⊢
    refine ⟨htoken, hafter, ?_, rfl⟩
    rw [hafter]
    exact hposition _ hle
  · -- `u+` without a digit is measured as the name `u`
    rintro ds rfl rfl hds
    obtain ⟨hlead, htoken, hafter⟩ := token_after_of_plus hcs hds
    have hnext := hposition 1 (Nat.le_add_left ..)
    rw [hlead]
    refine ⟨run_cut _ _, run_cut_recorded _ _ _, htoken, hafter, ?_, ?_⟩
    · rw [hafter]
      exact hnext
    · rw [Lexeme.named_of_plus]
      exact congrArg (fun p => [p]) hnext

/-- A `|=` is one operator, and the `u` of a `u+x` is flushed like any other name. -/
theorem operator_is_fallback_of_pair :
    (∃ token t', Id.run (ofText ['|', '=', 'a']).next? = some (token, t') ∧
      token.kind = .operator ∧ token.text = "|=" ∧ token.payload = .none ∧
      t'.source.position = 2 ∧ t'.source.committed = 0) ∧
    ∃ (token : Token) (t' : Tokenizer Cursor),
      Id.run ((ofText ['u', '+', 'x']).recorded []).next? = some (token, t'.recorded [1]) ∧
      token.kind = .identifier ∧ token.text = "u" ∧ t'.source.position = 1 := by
  constructor
  · obtain ⟨token, t', flushed, hnext, -, hiff, hoperator, -⟩ :=
      operator_is_fallback (ofText ['|', '=', 'a']) [] rfl rfl
    have hk := hiff.mpr (Lexeme.unclaimed_of_pair (Or.inr rfl) ['=', 'a'])
    obtain ⟨rfl, rfl, hposition, -⟩ := hoperator hk
    exact ⟨_, _, hnext, rfl, rfl, rfl, hposition, rfl⟩
  · obtain ⟨token, t', flushed, -, hrecorded, -, -, hplus⟩ :=
      operator_is_fallback (ofText ['u', '+', 'x']) [] rfl rfl
    have hx : ∀ d ∈ ['x'].head?, isHexDigit d = false := by simp [isHexDigit]
    obtain ⟨-, -, rfl, -, hposition, rfl⟩ := hplus ['x'] rfl rfl hx
    exact ⟨_, _, hrecorded, rfl, rfl, hposition⟩

end Tokenizer

end StyleLex
