import StyleLex.Proofs.Tiling
import StyleLex.Proofs.Words

/-!
# Proofs/Relabel — a configuration only changes labels

The tokens of a window are those of its characters, lexed as a text of their own, with other
positions and locations (`Config.relabel`).  Nothing outside the window takes part, although a lexer
in words has all of the text to look at (`tokens_of_window`).

Two runs of measured tokens go in step.  `Embeds` relates their states: the same characters ahead,
the same relative location, positions that differ by the beginning of the window.  One token keeps
the relation (`Embeds.after`) and is relabelled (`Embeds.token_eq`).  A lexer in words goes along
with the first run, so it relabels the tokens of the second, and computes each location on the way
(`Embeds.lexTokens_eq`).
-/

namespace StyleLex

/-- A token covers what lies between its positions, also where the largest position is reached. -/
theorem Tiles.start_add_length {text : List Char} {offset p q : Nat} {tokens : List Token}
    (h : Tiles text offset p tokens q) :
    ∀ token ∈ tokens, token.start + token.length = token.stop := by
  induction h with
  | nil => exact fun _ h => nomatch h
  | @cons p q _ token _ lt start_eq stop_eq _ _ ih =>
    intro other hother
    rcases List.mem_cons.mp hother with rfl | hother
    · have hle := shiftPosition_mono offset (Nat.le_of_lt lt)
      rw [← start_eq, ← stop_eq] at hle
      exact Nat.add_sub_cancel' hle
    · exact ih other hother

/-- Where each member gives a value, the list gives the values. -/
theorem mapM_eq_pure {m : Type → Type} [Monad m] [LawfulMonad m] {α β : Type} {f : α → m β}
    {g : α → β} {l : List α} (h : ∀ a ∈ l, f a = pure (g a)) : l.mapM f = pure (l.map g) := by
  induction l with
  | nil => rfl
  | cons a l ih =>
    obtain ⟨hhead, htail⟩ := List.forall_mem_cons.mp h
    rw [List.mapM_cons, hhead, pure_bind, ih htail, pure_bind, List.map_cons]

namespace Config

/-- **The labels that a configuration gives**: a token of the characters in the window, lexed as a
text of their own, as a token of the window. -/
def relabel (config : Config) (token : Token) : Token :=
  { token with
    start := min (token.start + config.start + config.positionOffset) maxPosition
    stop := min (token.stop + config.start + config.positionOffset) maxPosition
    location :=
      { line := config.location.line + token.location.line - 1
        column :=
          if token.location.line = 1 then config.location.column + token.location.column - 1
          else token.location.column
        offset := config.location.offset + token.location.offset } }

/-- The same, the location without the bits that do not fit in a word. -/
def relabelWrapped (config : Config) (token : Token) : Token :=
  { config.relabel token with location := (config.relabel token).location.wrapped }

/-- The same, the location being computed. -/
def relabelM {m : Type → Type} [Monad m] [Counting m] (config : Config) (token : Token) :
    m Token := do
  let location ← config.location.withinM token.location
  return { config.relabel token with location }

theorem relabel_shift (config : Config) (p : Nat) :
    min (shiftPosition 0 p + config.start + config.positionOffset) maxPosition =
      shiftPosition config.positionOffset (p + config.start) := by
  have h := shiftPosition_shiftPosition (config.start + config.positionOffset) 0 p
  rw [shiftPosition, Nat.zero_add, ← Nat.add_assoc] at h
  rw [h, shiftPosition, shiftPosition, Nat.add_assoc]

variable {config : Config} {token : Token}

/-- **Where the sums are words** a location is the one that the configuration gives. -/
theorem relabelM_eq {b : Build} (h : config.location.Reaches token.location)
    (hcounts : token.location.Counts) :
    config.relabelM token = (pure (config.relabel token) : Machine b Token) := by
  rw [relabelM, h.withinM_eq hcounts, pure_bind]
  rfl

/-- **Without checks** a location is the one that the configuration gives, but for the bits that do
not fit in a word. -/
theorem relabelM_wrapping (hcounts : token.location.Counts)
    (hcolumn : token.location.column ≤ maxPosition) :
    (config.relabelM token : Machine .wrapping Token) = pure (config.relabelWrapped token) := by
  rw [relabelM, Location.withinM_wrapping hcounts hcolumn, pure_bind]
  rfl

/-- Only the location of a token may fail to be computed. -/
theorem forall_mem_of_mapM_relabelM {b : Build} {P : Token → Prop} {tokens given : List Token}
    (hP : ∀ token ∈ tokens, ∀ location, P { config.relabel token with location })
    (h : (tokens.mapM config.relabelM : Machine b (List Token)) = pure given) :
    ∀ token ∈ given, P token := by
  induction tokens generalizing given with
  | nil =>
    obtain rfl := Option.some.inj h
    exact fun _ hmem => absurd hmem List.not_mem_nil
  | cons token tokens ih =>
    rw [List.mapM_cons, relabelM] at h
    obtain ⟨hhead, htail⟩ := List.forall_mem_cons.mp hP
    cases hplace : (config.location.withinM token.location : Machine b Location) with
    | none =>
      rw [hplace] at h
      cases h
    | some location =>
      cases hrest : (tokens.mapM config.relabelM : Machine b (List Token)) with
      | none =>
        rw [hplace, hrest] at h
        cases h
      | some rest =>
        rw [hplace, hrest] at h
        obtain rfl := Option.some.inj h
        exact List.forall_mem_cons.mpr ⟨hhead location, ih htail hrest⟩

end Config

namespace Tokenizer

/-- **Two runs in step**: `t` lexes a window, and `u` its characters as a text of their own. -/
structure Embeds (config : Config) (t u : Tokenizer Cursor) : Prop where
  config_eq : t.config = config
  alone_eq : u.config = { options := config.options }
  origin_eq : t.tracker.origin = config.location
  first_eq : u.tracker.origin = Location.first
  ahead_eq : t.source.ahead = u.source.ahead
  position_eq : t.source.position = u.source.position + config.start
  relative_eq : t.tracker.relative = u.tracker.relative
  closing_eq : t.closing = u.closing
  closesAhead : u.ClosesAhead

namespace Embeds

variable {config : Config} {t u : Tokenizer Cursor} {lx : Lexeme}

theorem closesAhead_left (h : Embeds config t u) : t.ClosesAhead := by
  rw [ClosesAhead, h.closing_eq, h.ahead_eq]
  exact h.closesAhead

theorem lexeme?_eq (h : Embeds config t u) : t.lexeme? = u.lexeme? := by
  change Lexeme.next? _ _ t.source.ahead = Lexeme.next? _ _ u.source.ahead
  rw [h.config_eq, h.alone_eq, h.closing_eq, h.ahead_eq]

/-- **One token keeps the runs in step.** -/
theorem after (h : Embeds config t u) (hlx : u.lexeme? = some lx) :
    Embeds config (t.after lx) (u.after lx) := by
  have hu := length_le_ahead h.closesAhead hlx
  have ht : lx.length ≤ t.source.ahead.length := h.ahead_eq ▸ hu
  refine ⟨h.config_eq, h.alone_eq, ?_, ?_, ?_, ?_, ?_, rfl, closesAhead_after hlx⟩
  · rw [Tokenizer.after, Tracker.advance_eq]
    exact h.origin_eq
  · rw [Tokenizer.after, Tracker.advance_eq]
    exact h.first_eq
  · rw [ahead_after, ahead_after, h.ahead_eq]
  · rw [position_after ht, position_after hu, h.position_eq]
    omega
  · rw [Tokenizer.after, Tokenizer.after, Tracker.advance_eq, Tracker.advance_eq]
    simp only
    rw [h.relative_eq, h.ahead_eq]

/-- **One token is relabelled.** -/
theorem token_eq (h : Embeds config t u) (hlx : u.lexeme? = some lx) :
    t.token lx = config.relabel (u.token lx) := by
  have hu := length_le_ahead h.closesAhead hlx
  have hlocation : u.location = u.tracker.relative := by
    rw [location, Tracker.current, h.first_eq, Location.first_within]
  rw [Tokenizer.token_eq (h.ahead_eq ▸ hu), Tokenizer.token_eq hu, Config.relabel]
  simp only [shift, h.alone_eq, h.config_eq, Config.relabel_shift]
  rw [h.position_eq, h.ahead_eq, hlocation, Nat.add_right_comm, location, Tracker.current,
    h.origin_eq, h.relative_eq]
  rfl

/-- **All the tokens are relabelled.** -/
theorem tokens_eq (h : Embeds config t u) : t.tokens = u.tokens.map config.relabel := by
  induction u using tokens_induction generalizing t with
  | done u hlx => rw [tokens_of_none hlx, tokens_of_none (h.lexeme?_eq.trans hlx), List.map_nil]
  | step u lx hlx ih =>
    rw [tokens_of_some hlx, tokens_of_some (h.lexeme?_eq.trans hlx), List.map_cons, h.token_eq hlx,
      ih (h.after hlx)]

/-- The locations of a text of its own are counted from 1, and there is room to count on. -/
theorem placed_of_mem_tokens (h : Embeds config t u) (hcounts : u.tracker.relative.Counts)
    (hroom : u.tracker.relative.Room (· ≤ maxPosition) u.source.ahead.length) :
    ∀ token ∈ u.tokens,
      token.location.Counts ∧ token.location.Room (· ≤ maxPosition) 1 := by
  induction u using tokens_induction generalizing t with
  | done u hlx =>
    rw [tokens_of_none hlx]
    exact fun _ hmem => absurd hmem List.not_mem_nil
  | step u lx hlx ih =>
    have hle := length_le_ahead h.closesAhead hlx
    have hpos := Lexeme.length_pos_of_next? hlx
    rw [tokens_of_some hlx]
    refine List.forall_mem_cons.mpr ⟨?_, ih (h.after hlx) (counts_after hcounts lx) ?_⟩
    · have hlocation : (u.token lx).location = u.tracker.relative := by
        rw [Tokenizer.token_eq hle, location, Tracker.current, h.first_eq, Location.first_within]
      rw [hlocation]
      exact ⟨hcounts, hroom.of_le (Machine.exact .checked) (Nat.le_trans hpos hle)⟩
    · rw [Tokenizer.after, Tracker.advance_eq, ahead_sourceAfter, List.length_drop]
      refine Location.Room.past (Machine.exact .checked) ?_ _
      rwa [Nat.add_sub_cancel' hle]

/-- **A lexer that goes call by call relabels** each token, computing its location. -/
theorem lexTokens_eq {σ : Type} {m : Type → Type} [Monad m] [LawfulMonad m] [Counting m]
    [Reader σ] [Source m σ] [Scanner m σ] {R : σ → Cursor → Prop} {Fits : Nat → Prop}
    (hf : Source.Faithful m R Fits) {s : Tokenizer σ} (hs : Tracks R Fits t s)
    (h : Embeds config t u) (n : Nat) :
    s.lexTokens n = ((u.tokens.take n).mapM config.relabelM : m (List Token)) := by
  induction n generalizing s t u with
  | zero =>
    rw [lexTokens, lexTake, map_pure, List.take_zero, List.mapM_nil]
  | succ n ih =>
    rw [lexTokens, lexTake]
    cases hlx : u.lexeme? with
    | none =>
      rw [lexNext?_of_none hf hs (h.lexeme?_eq.trans hlx), pure_bind, map_pure, tokens_of_none hlx]
      rfl
    | some lx =>
      obtain ⟨next, hnext, heq⟩ :=
        exists_lexNext?_eq hf hs h.closesAhead_left (h.lexeme?_eq.trans hlx)
      have hcurrent : (t.tracker.currentM : m Location) =
          config.location.withinM (u.token lx).location := by
        rw [Tokenizer.token_eq (length_le_ahead h.closesAhead hlx), location, Tracker.current,
          h.first_eq, Location.first_within, Tracker.currentM, h.origin_eq, h.relative_eq]
      rw [heq, tokens_of_some hlx, List.take_succ_cons, List.mapM_cons, Config.relabelM, hcurrent]
      simp only [bind_assoc, pure_bind, map_bind, map_pure]
      refine bind_congr fun loc => ?_
      rw [← ih (hnext loc) (h.after hlx), lexTokens, h.token_eq hlx, bind_map_left]

end Embeds

/-- A window inside its text is lexed in step with its characters. -/
theorem embeds_ofSource {text : List Char} {config : Config}
    (hstart : config.start ≤ config.stopIn text) (hstop : config.stopIn text ≤ text.length) :
    ∃ u, ofConfig? ((text.drop config.start).take (config.stopIn text - config.start))
        { options := config.options } = .ok u ∧
      Embeds config (ofSource (Cursor.atStart (config.window hstart hstop)) config) u := by
  refine ⟨_, ofConfig?_of_le (Nat.zero_le _) (Nat.le_refl _), rfl, rfl, rfl, rfl, ?_, ?_, rfl, rfl,
    closesAhead_ofSource _ _⟩
  · change (text.take _).drop _ = List.drop 0 (List.take (List.length _) _)
    rw [List.drop_zero, List.take_length, List.drop_take]
    rfl
  · exact (Nat.zero_add _).symm

namespace Embeds

variable {config : Config} {t u : Tokenizer Cursor}

/-- A text of its own is in step with itself. -/
theorem self (h : Embeds config t u) : Embeds { options := config.options } u u :=
  ⟨h.alone_eq, h.alone_eq, h.first_eq, h.first_eq, rfl, rfl, rfl, rfl, h.closesAhead⟩

/-- **A text of its own is lexed as it is**: its locations are near enough to its beginning. -/
theorem mapM_relabelM_self (h : Embeds config t u)
    (hplaced : ∀ token ∈ u.tokens,
      token.location.Counts ∧ token.location.Room (· ≤ maxPosition) 1) (b : Build) (n : Nat) :
    ((u.tokens.take n).mapM (Config.relabelM { options := config.options }) :
      Machine b (List Token)) = pure (u.tokens.take n) := by
  have hsame := h.self.tokens_eq
  rw [mapM_eq_pure (g := Config.relabel { options := config.options }), List.map_take, ← hsame]
  intro token hmem
  obtain ⟨hcounts, hroom⟩ := hplaced token (List.mem_of_mem_take hmem)
  have hline := hroom.line
  have hcolumn := hroom.column
  have hoffset := hroom.offset
  refine Config.relabelM_eq ⟨?_, fun _ => ?_, ?_⟩ hcounts
  · exact (Nat.add_comm ..).symm ▸ hline
  · exact (Nat.add_comm ..).symm ▸ hcolumn
  · exact (Nat.zero_add _).symm ▸ Nat.le_of_succ_le hoffset

/-- No token ends before it starts, whatever its labels. -/
theorem difference?_relabel (h : Embeds config t u) :
    ∀ token ∈ u.tokens, ∀ location, Checked.difference?
      { config.relabel token with location }.stop { config.relabel token with location }.start =
        some { config.relabel token with location }.length := by
  intro token hmem location
  have hcovers := ((run_rest u).tiles h.closesAhead).start_add_length token hmem
  refine if_pos ?_
  simp only [Config.relabel]
  omega

/-- **The labels in words**: a lexer that goes along computes each location, and so gives the labels
of the configuration where the sums are words, and those labels but for the bits that do not fit
where nothing is checked. -/
theorem lexTokens_in_words {b : Build} {s : Tokenizer Checked}
    (hs : Tracks Checked.Follows (· ≤ maxPosition) t s) (h : Embeds config t u)
    (hplaced : ∀ token ∈ u.tokens,
      token.location.Counts ∧ token.location.Room (· ≤ maxPosition) 1) (n : Nat) :
    s.lexTokens n = ((u.tokens.take n).mapM config.relabelM : Machine b (List Token)) ∧
      ((∀ token ∈ u.tokens.take n, config.location.Reaches token.location) →
        s.lexTokens n =
          (pure ((u.tokens.take n).map config.relabel) : Machine b (List Token))) ∧
      (b = .wrapping →
        s.lexTokens n =
          (pure ((u.tokens.take n).map config.relabelWrapped) : Machine b (List Token))) ∧
      ∀ given, s.lexTokens n = (pure given : Machine b (List Token)) →
        ∀ token ∈ given,
          Checked.difference? token.stop token.start = some token.length := by
  have hlexed := h.lexTokens_eq (Checked.faithful b) hs n
  refine ⟨hlexed, fun hreaches => ?_, fun hwrapping => ?_, fun given hgiven => ?_⟩
  · rw [hlexed]
    exact mapM_eq_pure fun token hmem => Config.relabelM_eq (hreaches token hmem)
      (hplaced token (List.mem_of_mem_take hmem)).1
  · subst hwrapping
    rw [hlexed]
    refine mapM_eq_pure fun token hmem => ?_
    obtain ⟨hcounts, hroom⟩ := hplaced token (List.mem_of_mem_take hmem)
    exact Config.relabelM_wrapping hcounts (Nat.le_of_succ_le hroom.column)
  · rw [hlexed] at hgiven
    exact Config.forall_mem_of_mapM_relabelM (fun token hmem =>
      h.difference?_relabel token (List.mem_of_mem_take hmem)) hgiven

end Embeds

/-- **A window and its characters alone**, in words and in step. -/
theorem exists_alone {text : List Char} {config : Config}
    (hstart : config.start ≤ config.stopIn text) (hstop : config.stopIn text ≤ text.length)
    (hlength : text.length < maxPosition) :
    ∃ alone u,
      inWords? ((text.drop config.start).take (config.stopIn text - config.start))
        { options := config.options } = .ok alone ∧
      ofConfig? ((text.drop config.start).take (config.stopIn text - config.start))
        { options := config.options } = .ok u ∧
      Tracks Checked.Follows (· ≤ maxPosition) u alone ∧
      Embeds config (ofSource (Cursor.atStart (config.window hstart hstop)) config) u ∧
      ∀ token ∈ u.tokens, token.location.Counts ∧ token.location.Room (· ≤ maxPosition) 1 := by
  obtain ⟨u, hu, hembeds⟩ := embeds_ofSource hstart hstop
  have hchars : ((text.drop config.start).take (config.stopIn text - config.start)).length <
      maxPosition := by
    rw [List.length_take, List.length_drop]
    omega
  have halone := @tracks_ofSource _ { options := config.options } (Nat.zero_le _)
    (Nat.le_refl _) hchars
  rw [← Except.ok.inj (hu.symm.trans (ofConfig?_of_le (Nat.zero_le _) (Nat.le_refl _)))] at halone
  exact ⟨_, u, inWords?_of_le (Nat.zero_le _) (Nat.le_refl _), hu, halone, hembeds,
    hembeds.placed_of_mem_tokens (hembeds.relative_eq ▸ counts_ofSource _ config) halone.room⟩

end Tokenizer

end StyleLex
