import StyleLex.Proofs.Rule
import StyleLex.Tokenizer.Plain

/-!
# Proofs/Run — lexing a text, token after token

Over a cursor the next token is cut out of the characters ahead and out of nothing else
(`token_eq`), and the cursor moves by exactly its length (`position_after`).  Both need the token to
lie ahead, which for the `*/` of a split comment is an invariant of the run: while `closing` is set
a `*/` stands ahead (`ClosesAhead`).

`tokens` unfolds one token at a time (`tokens_of_some`), and `tokens_induction` is the induction
along it.  `Run t tokens u` is a run of any length: calling `next?` on `t` gives `tokens` one after
the other and leaves `u`.  A tokenizer that splits no comment is `Whole` and stays so, and then each
token comes from a rule.
-/

namespace StyleLex

/-! ## The window that a configuration names -/

namespace Config

/-- The position after the last character of a text that is to be lexed. -/
def stopIn (config : Config) (text : List Char) : Nat := config.stop.getD text.length

/-- The window of a text, provided that it is inside the text. -/
def window (config : Config) {text : List Char} (hstart : config.start ≤ config.stopIn text)
    (hstop : config.stopIn text ≤ text.length) : Window where
  text := text.take (config.stopIn text)
  start := config.start
  start_le_length := by rwa [List.length_take, Nat.min_eq_left hstop]

theorem stop_window (config : Config) {text : List Char}
    (hstart : config.start ≤ config.stopIn text) (hstop : config.stopIn text ≤ text.length) :
    (config.window hstart hstop).stop = config.stopIn text :=
  (List.length_take ..).trans (Nat.min_eq_left hstop)

end Config

namespace Tokenizer

variable {text : List Char} {config : Config}

/-- **A window inside its text** is read from its beginning. -/
theorem ofConfig?_of_le (hstart : config.start ≤ config.stopIn text)
    (hstop : config.stopIn text ≤ text.length) :
    ofConfig? text config =
      .ok (ofSource (Cursor.atStart (config.window hstart hstop)) config) := by
  rw [ofConfig?, Window.of?, dif_pos ⟨hstart, hstop⟩]
  rfl

/-- **Any other window is refused.** -/
theorem ofConfig?_of_not_le
    (h : ¬(config.start ≤ config.stopIn text ∧ config.stopIn text ≤ text.length)) :
    ofConfig? text config = .error ⟨config.start, config.stopIn text, text.length⟩ := by
  unfold Config.stopIn at h
  rw [ofConfig?, Window.of?, dif_neg h]
  rfl

/-- A tokenizer made for a text is at the beginning of a window. -/
theorem exists_window_of_ofConfig? {t : Tokenizer Cursor} (h : ofConfig? text config = .ok t) :
    ∃ w, t = ofSource (Cursor.atStart w) config := by
  by_cases hle : config.start ≤ config.stopIn text ∧ config.stopIn text ≤ text.length
  · exact ⟨_, Except.ok.inj (h.symm.trans (ofConfig?_of_le hle.1 hle.2))⟩
  · cases (ofConfig?_of_not_le hle).symm.trans h

end Tokenizer

/-! ## Pieces of what lies ahead -/

/-- The piece of `cs` at a place. -/
def Span.cut (cs : List Char) (s : Span) : String :=
  String.ofList ((cs.drop s.start).take (s.stop - s.start))

/-- A piece does not depend on what comes after it. -/
theorem Span.cut_take {cs : List Char} {s : Span} {n : Nat} (h : s.stop ≤ n) :
    Span.cut (cs.take n) s = Span.cut cs s := by
  rw [Span.cut, Span.cut, List.drop_take, List.take_take, Nat.min_eq_left (by omega)]

/-- The piece behind `pre`. -/
theorem Span.cut_behind (pre cs : List Char) (n : Nat) :
    Span.cut (pre ++ cs) ⟨pre.length, pre.length + n⟩ = String.ofList (cs.take n) := by
  rw [Span.cut, List.drop_left, Nat.add_sub_cancel_left]

theorem Span.cut_shift (cs : List Char) (n : Nat) (s : Span) :
    Span.cut cs (s.shift n) = Span.cut (cs.drop n) s := by
  rw [Span.cut, Span.cut, List.drop_drop, Span.shift, Nat.add_sub_add_left]

namespace Cursor

/-- **A piece that begins at the next character or later lies ahead.** -/
theorem slice_position_add (c : Cursor) (i j : Nat) :
    c.slice (c.position + i) (c.position + j) = Span.cut c.ahead ⟨i, j⟩ := by
  rw [slice, Span.cut, ahead, List.drop_drop, Nat.add_sub_add_left]

theorem position_skip {c : Cursor} {n : Nat} (h : n ≤ c.ahead.length) :
    (c.skip n).position = c.position + n := by
  rw [length_ahead, left] at h
  exact Nat.min_eq_left (by have := c.position_le_stop; omega)

end Cursor

namespace Tokenizer

/-! ## The invariant -/

/-- **While a comment waits for its `*/`, the `*/` stands ahead.** -/
def ClosesAhead (t : Tokenizer Cursor) : Prop :=
  t.closing = true → ∃ ds, t.source.ahead = '*' :: '/' :: ds

theorem closesAhead_ofSource (c : Cursor) (config : Config) : ClosesAhead (ofSource c config) :=
  fun h => Bool.noConfusion h

theorem closesAhead_of_ofConfig? {text : List Char} {config : Config} {t : Tokenizer Cursor}
    (h : ofConfig? text config = .ok t) : t.ClosesAhead := by
  obtain ⟨w, rfl⟩ := exists_window_of_ofConfig? h
  exact closesAhead_ofSource _ config

/-- Where the next token is measured, there is a next character, and the token is the `*/` that was
announced or comes from a rule. -/
theorem lexeme?_cases {t : Tokenizer Cursor} {lx : Lexeme} (h : t.lexeme? = some lx) :
    ∃ c cs, t.source.ahead = c :: cs ∧
      ((t.closing = true ∧ lx = .commentClose) ∨
        (t.closing = false ∧ lx = Lexeme.leading t.config.options c cs)) := by
  change Lexeme.next? _ _ t.source.ahead = some lx at h
  cases hcs : t.source.ahead with
  | nil =>
    rw [hcs] at h
    cases h
  | cons c cs =>
    rw [hcs, Lexeme.next?] at h
    obtain rfl := Option.some.inj h
    refine ⟨c, cs, rfl, ?_⟩
    cases t.closing with
    | true => exact Or.inl ⟨rfl, rfl⟩
    | false => exact Or.inr ⟨rfl, rfl⟩

/-- While no comment waits for its `*/`, the next character decides about the next token. -/
theorem lexeme?_of_cons {t : Tokenizer Cursor} {c : Char} {cs : List Char}
    (hcs : t.source.ahead = c :: cs) (hc : t.closing = false) :
    t.lexeme? = some (Lexeme.leading t.config.options c cs) := by
  change Lexeme.next? _ _ t.source.ahead = _
  rw [hcs, hc]
  rfl

/-- While a comment waits for its `*/`, that is the next token. -/
theorem lexeme?_of_closing {t : Tokenizer Cursor} {c : Char} {cs : List Char}
    (hcs : t.source.ahead = c :: cs) (hc : t.closing = true) :
    t.lexeme? = some .commentClose := by
  change Lexeme.next? _ _ t.source.ahead = _
  rw [hcs, hc]
  rfl

/-- **The next token lies ahead.** -/
theorem length_le_ahead {t : Tokenizer Cursor} {lx : Lexeme} (hi : t.ClosesAhead)
    (h : t.lexeme? = some lx) : lx.length ≤ t.source.ahead.length := by
  refine Lexeme.length_le_of_next? h fun hc => ?_
  obtain ⟨ds, hds⟩ := hi hc
  rw [hds]
  exact Nat.le_add_left ..

/-- The pieces of the next token's payload lie in the token. -/
theorem span_le_of_lexeme? {t : Tokenizer Cursor} {lx : Lexeme} (h : t.lexeme? = some lx)
    {s : Span} (hs : s ∈ lx.payload.pieces) : s.start ≤ s.stop ∧ s.stop ≤ lx.length := by
  obtain ⟨c, cs, -, ⟨-, rfl⟩ | ⟨-, rfl⟩⟩ := lexeme?_cases h
  · cases hs
  · exact (Lexeme.rule_leading _ c cs).piece_le hs

/-- **Every token keeps the invariant.** -/
theorem closesAhead_after {t : Tokenizer Cursor} {lx : Lexeme} (h : t.lexeme? = some lx) :
    (t.after lx).ClosesAhead := by
  intro ho
  change ∃ ds, (t.sourceAfter lx).ahead = _
  rw [ahead_sourceAfter]
  obtain ⟨c, cs, hcs, ⟨-, rfl⟩ | ⟨-, rfl⟩⟩ := lexeme?_cases h
  · cases ho
  · rw [hcs]
    exact (Lexeme.rule_leading _ c cs).close_of_opensComment ho

/-! ## One token -/

/-- The tokenizer moves on by the length of the token. -/
theorem position_after {t : Tokenizer Cursor} {lx : Lexeme}
    (h : lx.length ≤ t.source.ahead.length) :
    (t.after lx).source.position = t.source.position + lx.length := by
  rw [← Cursor.position_skip h]
  change (t.sourceAfter lx).position = _
  unfold sourceAfter
  split <;> rfl

@[simp] theorem ahead_after (t : Tokenizer Cursor) (lx : Lexeme) :
    (t.after lx).source.ahead = t.source.ahead.drop lx.length := ahead_sourceAfter t lx

theorem shift_after (t : Tokenizer Cursor) (lx : Lexeme) : (t.after lx).shift = t.shift := rfl

/-- **The next token is cut out of the characters ahead.** -/
theorem token_eq {t : Tokenizer Cursor} {lx : Lexeme} (h : lx.length ≤ t.source.ahead.length) :
    t.token lx =
      { kind := lx.kind
        start := t.shift t.source.position
        stop := t.shift (t.source.position + lx.length)
        text := String.ofList (t.source.ahead.take lx.length)
        location := t.location
        payload := lx.payload.map (Span.cut t.source.ahead) } := by
  have htext := t.source.slice_position_add 0 lx.length
  rw [Span.cut, List.drop_zero, Nat.sub_zero, Nat.add_zero] at htext
  have hpayload : (lx.payload.map fun span =>
      t.source.slice (t.source.position + span.start) (t.source.position + span.stop)) =
        lx.payload.map (Span.cut t.source.ahead) :=
    congrArg lx.payload.map (funext fun s => t.source.slice_position_add s.start s.stop)
  rw [token, Cursor.position_skip h, htext, hpayload]

theorem length_text_token {t : Tokenizer Cursor} {lx : Lexeme}
    (h : lx.length ≤ t.source.ahead.length) : (t.token lx).text.toList.length = lx.length := by
  rw [token_eq h, String.toList_ofList, List.length_take, Nat.min_eq_left h]

/-- **What the next character begins** is the next token, unless a comment waits for its `*/`. -/
theorem next?_of_cons {t : Tokenizer Cursor} {c : Char} {cs : List Char}
    (hcs : t.source.ahead = c :: cs) (hc : t.closing = false) :
    Id.run t.next? = some (t.token (Lexeme.leading t.config.options c cs),
      t.after (Lexeme.leading t.config.options c cs)) := by
  rw [run_next?, lexeme?_of_cons hcs hc]
  rfl

theorem token_leading {t : Tokenizer Cursor} {c : Char} {cs : List Char}
    (hcs : t.source.ahead = c :: cs) {lx : Lexeme}
    (hlx : Lexeme.leading t.config.options c cs = lx) :
    t.token lx =
      { kind := lx.kind
        start := t.shift t.source.position
        stop := t.shift (t.source.position + lx.length)
        text := String.ofList ((c :: cs).take lx.length)
        location := t.location
        payload := lx.payload.map (Span.cut (c :: cs)) } := by
  have hle := (Lexeme.leading_length t.config.options c cs).2
  rw [hlx] at hle
  rw [token_eq (by rw [hcs]; exact hle), hcs]

/-! ## All the tokens that are left -/

/-- More calls than characters give nothing more. -/
theorem run_take_of_le : ∀ (n : Nat) {k : Nat} {t : Tokenizer Cursor},
    t.source.ahead.length ≤ n → n ≤ k → Id.run (t.take k) = Id.run (t.take n)
  | 0, 0, t, _, _ => rfl
  | 0, k + 1, t, h, _ =>
      run_take_succ_of_none
        (lexeme?_eq_none_iff.mpr (List.eq_nil_of_length_eq_zero (Nat.le_zero.mp h))) k
  | n + 1, 0, t, _, hk => absurd hk (Nat.not_succ_le_zero n)
  | n + 1, k + 1, t, h, hk => by
      cases hlx : t.lexeme? with
      | none => rw [run_take_succ_of_none hlx, run_take_succ_of_none hlx]
      | some lx =>
        have hlt := length_ahead_after_lt hlx
        rw [run_take_succ_of_some hlx, run_take_succ_of_some hlx,
          run_take_of_le n (by omega) (Nat.le_of_succ_le_succ hk)]

theorem run_rest_of_none {t : Tokenizer Cursor} (h : t.lexeme? = none) :
    Id.run t.rest = ([], t) := by
  have hnil : (Reader.ahead t.source).length = 0 := by
    rw [show Reader.ahead t.source = [] from lexeme?_eq_none_iff.mp h]
    rfl
  rw [rest, hnil]
  rfl

theorem run_rest_of_some {t : Tokenizer Cursor} {lx : Lexeme} (h : t.lexeme? = some lx) :
    Id.run t.rest =
      (t.token lx :: (Id.run (t.after lx).rest).1, (Id.run (t.after lx).rest).2) := by
  have hlt := length_ahead_after_lt h
  have hsucc : t.source.ahead.length = (t.source.ahead.length - 1) + 1 := by omega
  have hrest : Id.run ((t.after lx).take (t.source.ahead.length - 1)) = Id.run (t.after lx).rest :=
    run_take_of_le _ (Nat.le_refl _) (Nat.le_sub_one_of_lt hlt)
  change Id.run (t.take t.source.ahead.length) = _
  rw [hsucc, run_take_succ_of_some h, hrest]

theorem tokens_of_none {t : Tokenizer Cursor} (h : t.lexeme? = none) : t.tokens = [] :=
  congrArg Prod.fst (run_rest_of_none h)

/-- **The tokens that are left**: the next one and the tokens left after it. -/
theorem tokens_of_some {t : Tokenizer Cursor} {lx : Lexeme} (h : t.lexeme? = some lx) :
    t.tokens = t.token lx :: (t.after lx).tokens :=
  congrArg Prod.fst (run_rest_of_some h)

/-- **Where the first `i` tokens end**, or all of them if there are fewer, counted in characters
from the next one. -/
def reach (t : Tokenizer Cursor) (i : Nat) : Nat :=
  ((t.tokens.take i).flatMap fun token => token.text.toList).length

theorem reach_zero (t : Tokenizer Cursor) : t.reach 0 = 0 := rfl

/-- The tokens behind the next one reach as far as they do from there. -/
theorem reach_succ_of_some {t : Tokenizer Cursor} {lx : Lexeme}
    (hle : lx.length ≤ t.source.ahead.length) (h : t.lexeme? = some lx) (i : Nat) :
    t.reach (i + 1) = lx.length + (t.after lx).reach i := by
  rw [reach, tokens_of_some h, List.take_succ_cons, List.flatMap_cons, List.length_append,
    length_text_token hle, reach]

/-- There are no more tokens exactly where there are no more characters. -/
theorem tokens_eq_nil_iff {t : Tokenizer Cursor} : t.tokens = [] ↔ t.source.ahead = [] := by
  rw [← lexeme?_eq_none_iff]
  refine ⟨fun h => ?_, tokens_of_none⟩
  cases hlx : t.lexeme? with
  | none => rfl
  | some lx =>
    rw [tokens_of_some hlx] at h
    cases h

/-- **Induction along a run**: what holds at the end, and of a tokenizer if it holds after its next
token, holds of every tokenizer. -/
theorem tokens_induction {P : Tokenizer Cursor → Prop}
    (done : ∀ t, t.lexeme? = none → P t)
    (step : ∀ t lx, t.lexeme? = some lx → P (t.after lx) → P t) (t : Tokenizer Cursor) : P t := by
  induction hn : t.source.ahead.length using Nat.strongRecOn generalizing t with
  | _ n ih =>
    cases h : t.lexeme? with
    | none => exact done t h
    | some lx => exact step t lx h (ih _ (hn ▸ length_ahead_after_lt h) _ rfl)

/-! ## Runs

A run changes the place in the window, and neither the window nor the configuration. -/

/-- **A run**: calling `next?` again and again gives these tokens, and then the tokenizer is `u`. -/
inductive Run : Tokenizer Cursor → List Token → Tokenizer Cursor → Prop where
  | done (t : Tokenizer Cursor) : Run t [] t
  | step {t t' u : Tokenizer Cursor} {token : Token} {tokens : List Token}
      (head : Id.run t.next? = some (token, t')) (tail : Run t' tokens u) :
      Run t (token :: tokens) u

theorem next?_eq_some_iff {t t' : Tokenizer Cursor} {token : Token} :
    Id.run t.next? = some (token, t') ↔
      ∃ lx, t.lexeme? = some lx ∧ t.token lx = token ∧ t.after lx = t' := by
  rw [run_next?, Option.map_eq_some_iff]
  simp only [Prod.mk.injEq]

/-- **A run that begins with the next token.** -/
theorem Run.of_lexeme? {t u : Tokenizer Cursor} {lx : Lexeme} {tokens : List Token}
    (h : t.lexeme? = some lx) (tail : Run (t.after lx) tokens u) :
    Run t (t.token lx :: tokens) u :=
  .step (next?_eq_some_iff.mpr ⟨lx, h, rfl, rfl⟩) tail

theorem next?_eq_none_iff {t : Tokenizer Cursor} :
    Id.run t.next? = none ↔ t.source.ahead = [] := by
  rw [run_next?, Option.map_eq_none_iff, lexeme?_eq_none_iff]

theorem Run.closesAhead {t u : Tokenizer Cursor} {tokens : List Token} (h : Run t tokens u)
    (hi : t.ClosesAhead) : u.ClosesAhead := by
  induction h with
  | done => exact hi
  | step head _ ih =>
    obtain ⟨lx, hlx, -, rfl⟩ := next?_eq_some_iff.mp head
    exact ih (closesAhead_after hlx)

theorem window_after (t : Tokenizer Cursor) (lx : Lexeme) :
    (t.after lx).source.window = t.source.window := by
  change (t.sourceAfter lx).window = _
  unfold sourceAfter
  split <;> rfl

theorem Run.window_eq {t u : Tokenizer Cursor} {tokens : List Token} (h : Run t tokens u) :
    u.source.window = t.source.window := by
  induction h with
  | done => rfl
  | step head _ ih =>
    obtain ⟨lx, -, -, rfl⟩ := next?_eq_some_iff.mp head
    exact ih.trans (window_after _ lx)

theorem Run.config_eq {t u : Tokenizer Cursor} {tokens : List Token} (h : Run t tokens u) :
    u.config = t.config := by
  induction h with
  | done => rfl
  | step head _ ih =>
    obtain ⟨lx, -, -, rfl⟩ := next?_eq_some_iff.mp head
    exact ih

/-- **The texts of a run are the characters it consumes.** -/
theorem Run.ahead_eq {t u : Tokenizer Cursor} {tokens : List Token} (h : Run t tokens u)
    (hi : t.ClosesAhead) :
    t.source.ahead = (tokens.flatMap fun token => token.text.toList) ++ u.source.ahead := by
  induction h with
  | done => rfl
  | step head _ ih =>
    obtain ⟨lx, hlx, rfl, rfl⟩ := next?_eq_some_iff.mp head
    have htail := ih (closesAhead_after hlx)
    rw [ahead_after] at htail
    rw [List.flatMap_cons, List.append_assoc, ← htail, token_eq (length_le_ahead hi hlx),
      String.toList_ofList, List.take_append_drop]

/-- **A run moves the position by its texts.** -/
theorem Run.position_eq {t u : Tokenizer Cursor} {tokens : List Token} (h : Run t tokens u)
    (hi : t.ClosesAhead) :
    u.source.position =
      t.source.position + (tokens.flatMap fun token => token.text.toList).length := by
  induction h with
  | done => rfl
  | step head _ ih =>
    obtain ⟨lx, hlx, rfl, rfl⟩ := next?_eq_some_iff.mp head
    have hle := length_le_ahead hi hlx
    rw [ih (closesAhead_after hlx), position_after hle, List.flatMap_cons, List.length_append,
      length_text_token hle, Nat.add_assoc]

/-- The tokens that are left after the first few are those of the tokenizer after them. -/
theorem exists_run_of_tokens_eq : ∀ {pre post : List Token} {t : Tokenizer Cursor},
    t.tokens = pre ++ post → ∃ u, Run t pre u ∧ u.tokens = post
  | [], _, t, h => ⟨t, .done t, h⟩
  | token :: pre, post, t, h => by
      cases hlx : t.lexeme? with
      | none =>
        rw [tokens_of_none hlx] at h
        cases h
      | some lx =>
        rw [tokens_of_some hlx] at h
        obtain ⟨rfl, htail⟩ := List.cons.inj h
        obtain ⟨u, hrun, hu⟩ := exists_run_of_tokens_eq htail
        exact ⟨u, .of_lexeme? hlx hrun, hu⟩

/-- **Any token that is left** is the next one of the tokenizer after those before it. -/
theorem exists_run_of_tokens_eq_cons {pre post : List Token} {token : Token}
    {t : Tokenizer Cursor} (h : t.tokens = pre ++ token :: post) :
    ∃ u lx, Run t pre u ∧ u.lexeme? = some lx ∧ u.token lx = token ∧
      (u.after lx).tokens = post := by
  obtain ⟨u, hrun, hu⟩ := exists_run_of_tokens_eq h
  cases hlx : u.lexeme? with
  | none =>
    rw [tokens_of_none hlx] at hu
    cases hu
  | some lx =>
    rw [tokens_of_some hlx] at hu
    exact ⟨u, lx, hrun, hlx, List.cons.inj hu⟩

/-- The tokens of a run come first among those that are left. -/
theorem Run.tokens_eq {t u : Tokenizer Cursor} {tokens : List Token} (h : Run t tokens u) :
    t.tokens = tokens ++ u.tokens := by
  induction h with
  | done => rfl
  | step head _ ih =>
    obtain ⟨lx, hlx, rfl, rfl⟩ := next?_eq_some_iff.mp head
    rw [tokens_of_some hlx, ih, List.cons_append]

/-- **All the tokens that are left are a run** to where nothing is left. -/
theorem run_rest (t : Tokenizer Cursor) : Run t t.tokens (Id.run t.rest).2 := by
  refine tokens_induction (P := fun t => Run t t.tokens (Id.run t.rest).2) ?_ ?_ t
  · intro t h
    rw [tokens_of_none h, run_rest_of_none h]
    exact .done t
  · intro t lx h ih
    rw [tokens_of_some h, run_rest_of_some h]
    exact .of_lexeme? h ih

/-! ## Runs that split no comment -/

/-- No comment is split: the option is off and no `*/` waits. -/
def Whole (t : Tokenizer Cursor) : Prop :=
  t.config.options.commentMarkers = false ∧ t.closing = false

theorem whole_ofText (text : List Char) : Whole (ofText text) := ⟨rfl, rfl⟩

theorem Whole.closesAhead {t : Tokenizer Cursor} (h : t.Whole) : t.ClosesAhead := fun hc => by
  rw [h.2] at hc
  cases hc

theorem Whole.lexeme?_cases {t : Tokenizer Cursor} (h : t.Whole) {lx : Lexeme}
    (hlx : t.lexeme? = some lx) :
    ∃ c cs, t.source.ahead = c :: cs ∧ lx = Lexeme.leading t.config.options c cs := by
  obtain ⟨c, cs, hcs, ⟨hc, -⟩ | ⟨-, heq⟩⟩ := Tokenizer.lexeme?_cases hlx
  · rw [h.2] at hc
    cases hc
  · exact ⟨c, cs, hcs, heq⟩

/-- A tokenizer that splits no comment goes on splitting none. -/
theorem Whole.after {t : Tokenizer Cursor} (h : t.Whole) {lx : Lexeme} (hlx : t.lexeme? = some lx) :
    (t.after lx).Whole := by
  obtain ⟨c, cs, -, rfl⟩ := h.lexeme?_cases hlx
  refine ⟨h.1, Bool.eq_false_iff.mpr fun ho => ?_⟩
  obtain ⟨hm, -⟩ := (Lexeme.rule_leading _ c cs).opensComment_cases ho
  rw [h.1] at hm
  cases hm

theorem Whole.run {t u : Tokenizer Cursor} {tokens : List Token} (ht : t.Whole)
    (h : Run t tokens u) : u.Whole := by
  induction h with
  | done => exact ht
  | step head _ ih =>
    obtain ⟨lx, hlx, -, rfl⟩ := next?_eq_some_iff.mp head
    exact ih (ht.after hlx)

theorem Whole.options_eq {t : Tokenizer Cursor} (h : t.Whole) : t.config.options = {} := by
  have hm := h.1
  cases ho : t.config.options with
  | mk b =>
    rw [ho] at hm
    exact congrArg Options.mk hm

end Tokenizer

end StyleLex
