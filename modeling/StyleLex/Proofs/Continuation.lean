import StyleLex.Proofs.Lookahead
import StyleLex.Proofs.Place
import StyleLex.Proofs.Tiling

/-!
# Proofs/Continuation — what the tokens still to come depend on

The tokens that a tokenizer still gives depend on the characters ahead, the position, the location
and whether a `*/` waits, and on nothing else of what was lexed before.  `Alike more t u` says that
two tokenizers agree in this, except that `u` has the characters `more` ahead after those of `t`.
A token keeps the relation (`Alike.after`) and is the same for both (`Alike.token_eq`), provided
that there are no more characters or that three at least are left before them (`Lookahead`).

With no more characters this is resumption (`tokens_resume`): where a token begins, a new tokenizer
takes over from the old one.  With more characters it is stability (`tokens_prefix_append`):
appending text does not change the tokens that end three characters before the end.
-/

namespace StyleLex

/-- A piece does not depend on what is appended after it. -/
theorem Span.cut_append {cs : List Char} {s : Span} (h : s.stop ≤ cs.length) (more : List Char) :
    Span.cut (cs ++ more) s = Span.cut cs s := by
  have htake := @Span.cut_take (cs ++ more) s cs.length h
  rw [List.take_left] at htake
  exact htake.symm

/-- What follows the character after those counted does not matter, so nor does what is appended
there. -/
theorem Location.past_append (loc : Location) {n : Nat} {cs more : List Char}
    (h : more = [] ∨ n < cs.length) : loc.past n (cs ++ more) = loc.past n cs := by
  obtain rfl | hlt := h
  · rw [List.append_nil]
  · rw [← past_take loc hlt, List.take_left]

/-- In a tiling no token ends before the tiling begins. -/
theorem Tiles.shiftPosition_le_stop {text : List Char} {offset p q : Nat} {tokens : List Token}
    (h : Tiles text offset p tokens q) :
    ∀ token ∈ tokens, shiftPosition offset p ≤ token.stop := by
  induction h with
  | nil => exact fun _ h => nomatch h
  | @cons p q _ token _ lt _ stop_eq _ _ ih =>
    have hle := shiftPosition_mono offset (Nat.le_of_lt lt)
    intro other hother
    rcases List.mem_cons.mp hother with rfl | hother
    · rwa [stop_eq]
    · exact Nat.le_trans hle (ih other hother)

namespace Tokenizer

/-- The pieces of the payload lie in the next token. -/
theorem piece_le_of_lexeme? {t : Tokenizer Cursor} {lx : Lexeme} (h : t.lexeme? = some lx)
    {s : Span} (hs : s ∈ lx.payload.pieces) : s.stop ≤ lx.length := (span_le_of_lexeme? h hs).2

/-- The tokens after a place that is too late end too late as well. -/
theorem filter_tokens_eq_nil {t : Tokenizer Cursor} {limit : Nat} (hi : t.ClosesAhead)
    (hoffset : t.config.positionOffset = 0)
    (hlate : limit < shiftPosition 0 t.source.position + 3) :
    t.tokens.filter (fun token => token.stop + 3 ≤ limit) = [] := by
  refine List.filter_eq_nil_iff.mpr fun token hmem => ?_
  have hge := ((run_rest t).tiles hi).shiftPosition_le_stop token hmem
  rw [hoffset] at hge
  simp only [decide_eq_true_eq]
  omega

/-! ## Tokenizers that go on alike -/

/-- **Two tokenizers that go on alike**, `u` having the characters `more` ahead after those that
both have ahead. -/
structure Alike (more : List Char) (t u : Tokenizer Cursor) : Prop where
  options_eq : u.config.options = t.config.options
  offset_eq : u.config.positionOffset = t.config.positionOffset
  ahead_eq : u.source.ahead = t.source.ahead ++ more
  position_eq : u.source.position = t.source.position
  location_eq : u.location = t.location
  closing_eq : u.closing = t.closing
  closesAhead : t.ClosesAhead
  counts : t.tracker.relative.Counts
  counts_more : u.tracker.relative.Counts

namespace Alike

variable {more : List Char} {t u : Tokenizer Cursor} {lx : Lexeme}

/-- **The same token is measured**, unless the additional characters are too near. -/
theorem lexeme?_eq (h : Alike more t u) (hlx : t.lexeme? = some lx)
    (hroom : more = [] ∨ lx.length + 3 ≤ t.source.ahead.length) : u.lexeme? = some lx := by
  obtain rfl | hroom := hroom
  · rw [← hlx]
    change Lexeme.next? _ _ u.source.ahead = Lexeme.next? _ _ t.source.ahead
    rw [h.options_eq, h.closing_eq, h.ahead_eq, List.append_nil]
  obtain ⟨c, cs, hcs, ⟨hc, rfl⟩ | ⟨hc, rfl⟩⟩ := lexeme?_cases hlx
  · exact lexeme?_of_closing (h.ahead_eq.trans (congrArg (· ++ more) hcs)) (h.closing_eq.trans hc)
  · have hahead : u.source.ahead = c :: (cs ++ more) :=
      h.ahead_eq.trans (congrArg (· ++ more) hcs)
    rw [hcs, List.length_cons] at hroom
    rw [lexeme?_of_cons hahead (h.closing_eq.trans hc), h.options_eq,
      Lexeme.leading_append more (by omega)]

theorem length_le (h : Alike more t u) (hlx : t.lexeme? = some lx) :
    lx.length ≤ u.source.ahead.length := by
  rw [h.ahead_eq, List.length_append]
  exact Nat.le_add_right_of_le (length_le_ahead h.closesAhead hlx)

/-- **The same token is cut out.** -/
theorem token_eq (h : Alike more t u) (hlx : t.lexeme? = some lx) : u.token lx = t.token lx := by
  have hle := length_le_ahead h.closesAhead hlx
  have hle' := h.length_le hlx
  have hpayload : lx.payload.map (Span.cut (t.source.ahead ++ more)) =
      lx.payload.map (Span.cut t.source.ahead) :=
    Payload.map_congr fun s hs =>
      Span.cut_append (Nat.le_trans (piece_le_of_lexeme? hlx hs) hle) more
  rw [Tokenizer.token_eq hle', Tokenizer.token_eq hle, shift, shift, h.offset_eq, h.position_eq,
    h.location_eq, h.ahead_eq, hpayload, List.take_append_of_le_length hle]
  rfl

/-- **One token keeps two tokenizers alike**, unless the additional characters follow it right
away. -/
theorem after (h : Alike more t u) (hlx : t.lexeme? = some lx)
    (hroom : more = [] ∨ lx.length < t.source.ahead.length) :
    Alike more (t.after lx) (u.after lx) := by
  have hle := length_le_ahead h.closesAhead hlx
  have hle' := h.length_le hlx
  refine ⟨h.options_eq, h.offset_eq, ?_, ?_, ?_, rfl, closesAhead_after hlx,
    counts_after h.counts lx, counts_after h.counts_more lx⟩
  · rw [ahead_after, ahead_after, h.ahead_eq, List.drop_append_of_le_length hle]
  · rw [position_after hle', position_after hle, h.position_eq]
  · rw [location_after h.counts_more, location_after h.counts, h.location_eq, h.ahead_eq,
      Location.past_append _ hroom]

/-- **Without more characters all the tokens are the same.** -/
theorem tokens_eq (h : Alike [] t u) : u.tokens = t.tokens := by
  induction t using tokens_induction generalizing u with
  | done t hlx =>
    rw [tokens_of_none hlx, tokens_eq_nil_iff, h.ahead_eq, lexeme?_eq_none_iff.mp hlx]
    rfl
  | step t lx hlx ih =>
    rw [tokens_of_some hlx, tokens_of_some (h.lexeme?_eq hlx (Or.inl rfl)), h.token_eq hlx,
      ih (h.after hlx (Or.inl rfl))]

/-- **With more characters the first tokens are the same**, as many as leave three characters. -/
theorem prefix_tokens {pre post : List Token} (h : Alike more t u)
    (htokens : t.tokens = pre ++ post)
    (hroom : (pre.flatMap fun token => token.text.toList).length + 3 ≤ t.source.ahead.length) :
    pre <+: u.tokens := by
  induction pre generalizing t u with
  | nil => exact List.nil_prefix
  | cons token pre ih =>
    cases hlx : t.lexeme? with
    | none => cases (tokens_of_none hlx).symm.trans htokens
    | some lx =>
      have hle := length_le_ahead h.closesAhead hlx
      rw [tokens_of_some hlx] at htokens
      obtain ⟨rfl, htail⟩ := List.cons.inj htokens
      rw [List.flatMap_cons, List.length_append, length_text_token hle] at hroom
      have hafter := ih (h.after hlx (Or.inr (by omega))) htail (by
        rw [ahead_after, List.length_drop]
        omega)
      rw [tokens_of_some (h.lexeme?_eq hlx (Or.inr (by omega))), h.token_eq hlx]
      exact (List.prefix_cons_inj _).mpr hafter

/-- The same, the tokens being chosen by their ends.  An end at the largest position says nothing
about where the token ends, so the limit is not beyond it. -/
theorem prefix_filter {limit : Nat} (h : Alike more t u) (hoffset : t.config.positionOffset = 0)
    (hlimit : limit ≤ t.source.position + t.source.ahead.length) (hmax : limit ≤ maxPosition) :
    (t.tokens.filter fun token => token.stop + 3 ≤ limit) <+: u.tokens := by
  induction t using tokens_induction generalizing u with
  | done t hlx =>
    rw [tokens_of_none hlx]
    exact List.nil_prefix
  | step t lx hlx ih =>
    have hle := length_le_ahead h.closesAhead hlx
    have hpos := position_after hle
    have hstop : (t.token lx).stop = shiftPosition 0 (t.after lx).source.position := by
      rw [Tokenizer.token_eq hle, hpos]
      exact congrArg (shiftPosition · _) hoffset
    rw [tokens_of_some hlx]
    by_cases hroom : (t.token lx).stop + 3 ≤ limit
    · have hlen : lx.length + 3 ≤ t.source.ahead.length := by
        rw [hstop, hpos, shiftPosition] at hroom
        omega
      rw [List.filter_cons_of_pos (by simpa using hroom),
        tokens_of_some (h.lexeme?_eq hlx (Or.inr hlen)), h.token_eq hlx]
      refine (List.prefix_cons_inj _).mpr (ih (h.after hlx (Or.inr (by omega))) hoffset ?_)
      rw [hpos, ahead_after, List.length_drop]
      omega
    · -- positions only grow, so no later token is kept either
      have hlate : limit < shiftPosition 0 (t.after lx).source.position + 3 := by
        rw [← hstop]
        exact Nat.lt_of_not_le hroom
      rw [List.filter_cons_of_neg (by simpa using hroom),
        filter_tokens_eq_nil (closesAhead_after hlx) hoffset hlate]
      exact List.nil_prefix

end Alike

/-! ## Appending text -/

theorem alike_append (a b : List Char) (o : Options) :
    ∃ t u, ofConfig? a { options := o } = .ok t ∧ ofConfig? (a ++ b) { options := o } = .ok u ∧
      Alike b t u ∧ t.source.position = 0 ∧ t.source.ahead = a := by
  have ha : List.drop 0 (a.take a.length) = a := List.take_length
  have hab : List.drop 0 ((a ++ b).take (a ++ b).length) = a ++ b := List.take_length
  refine ⟨_, _, ofConfig?_of_le (Nat.zero_le _) (Nat.le_refl _),
    ofConfig?_of_le (Nat.zero_le _) (Nat.le_refl _),
    ⟨rfl, rfl, ?_, rfl, rfl, rfl, closesAhead_ofSource _ _, counts_ofSource _ _,
      counts_ofSource _ _⟩, rfl, ha⟩
  exact hab.trans (congrArg (· ++ b) ha.symm)

/-- **Lookahead is bounded.**  Appending text to a text does not change the first of its tokens, as
many as together leave three characters.  So the tokens that end three characters before the end of
the text, which is not beyond the largest position, are the first tokens of the longer text. -/
theorem tokens_prefix_append (a b : List Char) (o : Options) :
    ∃ t u, ofConfig? a { options := o } = .ok t ∧ ofConfig? (a ++ b) { options := o } = .ok u ∧
      (∀ pre post, t.tokens = pre ++ post →
        (pre.flatMap fun token => token.text.toList).length + 3 ≤ a.length → pre <+: u.tokens) ∧
      (t.tokens.filter fun token => token.stop + 3 ≤ min a.length maxPosition) <+: u.tokens := by
  obtain ⟨t, u, ht, hu, halike, hpos, hahead⟩ := alike_append a b o
  refine ⟨t, u, ht, hu, fun pre post htokens hroom => ?_, ?_⟩
  · exact halike.prefix_tokens htokens (by rwa [hahead])
  · refine halike.prefix_filter ?_ ?_ (Nat.min_le_right ..)
    · obtain rfl := Except.ok.inj ((ofConfig?_of_le (Nat.zero_le _) (Nat.le_refl _)).symm.trans ht)
      rfl
    · rw [hpos, hahead, Nat.zero_add]
      exact Nat.min_le_left ..

/-- Two characters are not enough: three tokens become one. -/
example :
    (tokenize "<!-").map Token.kind = [.operator, .operator, .operator] ∧
      (tokenize "<!--").map Token.kind = [.cdataOpen] := by decide

/-! ## Resuming -/

section Window

variable {text : List Char} {config : Config} {hstart : config.start ≤ config.stopIn text}
  {hstop : config.stopIn text ≤ text.length} {tokens : List Token} {v : Tokenizer Cursor}

/-- **Where no `*/` waits, a new tokenizer goes on like the old one.** -/
theorem Run.exists_alike
    (h : Run (ofSource (Cursor.atStart (config.window hstart hstop)) config) tokens v)
    (hclosing : v.closing = false) (hcounts : v.tracker.relative.Counts) :
    ∃ u, ofConfig? text
        { config with
          start := v.source.position
          stop := some (config.stopIn text)
          location := v.location } = .ok u ∧ Alike [] v u := by
  have hconfig : v.config = config := h.config_eq
  have hwindow : v.source.window = config.window hstart hstop := h.window_eq
  refine ⟨_, @ofConfig?_of_le text
      { config with
        start := v.source.position
        stop := some (config.stopIn text)
        location := v.location } h.position_le_stopIn hstop,
    ⟨?_, ?_, ?_, rfl, rfl, hclosing.symm, h.closesAhead (closesAhead_ofSource _ _), hcounts,
      counts_ofSource _ _⟩⟩
  · rw [hconfig]
    rfl
  · rw [hconfig]
    rfl
  · change (text.take _).drop v.source.position = v.source.window.text.drop _ ++ []
    rw [hwindow, List.append_nil]
    rfl

end Window

/-- Only the `*/` of a split comment is a comment without a value. -/
theorem closing_of_token {v : Tokenizer Cursor} {lx : Lexeme} (hlx : v.lexeme? = some lx)
    (h : ¬((v.token lx).kind = .comment ∧ (v.token lx).payload = .none)) : v.closing = false := by
  obtain ⟨c, cs, -, ⟨-, rfl⟩ | ⟨hc, -⟩⟩ := lexeme?_cases hlx
  · exact absurd ⟨rfl, rfl⟩ h
  · exact hc

theorem closing_of_ahead_eq_nil {v : Tokenizer Cursor} (hi : v.ClosesAhead)
    (h : v.source.ahead = []) : v.closing = false := by
  refine Bool.eq_false_iff.mpr fun hc => ?_
  obtain ⟨ds, hds⟩ := hi hc
  cases h.symm.trans hds

/-- **Resumption.**  Take any token of a window that is not the `*/` of a split comment.  A new
tokenizer that begins at the position and location of this token, the rest of its configuration
being the same, gives this token and all those after it.  One that begins where the tokens end gives
none and stands at the same location. -/
theorem tokens_resume (text : List Char) (config : Config)
    (hstart : config.start ≤ config.stopIn text) (hstop : config.stopIn text ≤ text.length) :
    ∃ t, ofConfig? text config = .ok t ∧
      (∀ pre token post, t.tokens = pre ++ token :: post →
        ¬(token.kind = .comment ∧ token.payload = .none) →
          ∃ p u, p = config.start + (pre.flatMap fun before => before.text.toList).length ∧
            token.start = shiftPosition config.positionOffset p ∧
            ofConfig? text
              { config with
                start := p
                stop := some (config.stopIn text)
                location := token.location } = .ok u ∧
            u.tokens = token :: post) ∧
      ∃ v, Run t t.tokens v ∧ v.source.position = config.stopIn text ∧
        ∃ u, ofConfig? text
            { config with
              start := v.source.position
              stop := some (config.stopIn text)
              location := v.location } = .ok u ∧
          u.tokens = [] ∧ u.location = v.location := by
  have hcounts := counts_ofSource (Cursor.atStart (config.window hstart hstop)) config
  have hcloses := closesAhead_ofSource (Cursor.atStart (config.window hstart hstop)) config
  refine ⟨_, ofConfig?_of_le hstart hstop, fun pre token post htokens hnot => ?_, ?_⟩
  · obtain ⟨v, lx, hrun, hlx, rfl, hpost⟩ := exists_run_of_tokens_eq_cons htokens
    obtain ⟨u, hu, halike⟩ := hrun.exists_alike (closing_of_token hlx hnot) (hrun.counts hcounts)
    refine ⟨v.source.position, u, hrun.position_eq hcloses, ?_, hu, ?_⟩
    · exact congrArg (fun c : Config => shiftPosition c.positionOffset v.source.position)
        hrun.config_eq
    · rw [halike.tokens_eq, tokens_of_some hlx, hpost]
  · have hrun := run_rest (ofSource (Cursor.atStart (config.window hstart hstop)) config)
    have hnil := ahead_rest (ofSource (Cursor.atStart (config.window hstart hstop)) config)
    obtain ⟨u, hu, halike⟩ := hrun.exists_alike
      (closing_of_ahead_eq_nil (hrun.closesAhead hcloses) hnil) (hrun.counts hcounts)
    refine ⟨_, hrun, hrun.next?_eq_none_iff.mp (next?_eq_none_iff.mpr hnil), u, hu, ?_,
      halike.location_eq⟩
    rw [halike.tokens_eq, tokens_eq_nil_iff, hnil]

/-- A string whose last backslash takes a carriage return with it ends before the line feed, so a
line end lies in two tokens.  Taking over there gives the white space and the name that follow. -/
theorem tokens_resume_inside_line_end :
    ∃ t u, ofConfig? ['"', '\\', '\r', '\n', 'a'] { location := ⟨3, 5, 7⟩ } = .ok t ∧
      ofConfig? ['"', '\\', '\r', '\n', 'a']
        { start := 3, stop := some 5, location := ⟨3, 8, 10⟩ } = .ok u ∧
      t.tokens.length = 3 ∧ u.tokens = t.tokens.tail := by
  obtain ⟨t, ht, htokens, -⟩ :=
    tokens_resume ['"', '\\', '\r', '\n', 'a'] { location := ⟨3, 5, 7⟩ } (by decide) (by decide)
  obtain rfl := Except.ok.inj ht
  obtain ⟨p, u, rfl, -, hu, hrest⟩ := htokens [_] _ _ rfl (by decide)
  exact ⟨_, u, rfl, hu, rfl, hrest⟩

end Tokenizer

end StyleLex
