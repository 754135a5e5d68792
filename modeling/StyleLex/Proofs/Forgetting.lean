import StyleLex.Proofs.Run
import StyleLex.Source.Forgetful

/-!
# Proofs/Forgetting — lexing from a source that loses what was flushed

A flush says that nothing before a position is read again.  The lexer keeps to this in all but one
place.  It looks ahead only, and what is ahead is not flushed (`committed_le_position_after`).  The
pieces of a payload are cut before anything is consumed.  But the text of a token is cut last, and a
token that is flushed while it is consumed has its text cut after the flush.

So a `Forgetful` source gives the tokens of the cursor inside it, except that the texts of these
tokens are lost (`tokens_forgetful`).  Which tokens they are is a matter of their kind
(`Kind.isFlushedEarly`).

The two runs go in step, token by token (`Follows`).
-/

namespace StyleLex

namespace Tokenizer

/-! ## Another source in step with a cursor -/

section Follows

variable {σ : Type} [Reader σ] [Source Id σ]

/-- **A source in step with a cursor**: where `R` holds they have the same characters ahead, and a
token of the cursor becomes one of the source by `f` and keeps `R`. -/
structure Follows (R : Tokenizer σ → Tokenizer Cursor → Prop) (f : Token → Token) : Prop where
  ahead_eq {s : Tokenizer σ} {t : Tokenizer Cursor} (h : R s t) :
    Reader.ahead s.source = t.source.ahead
  step {s : Tokenizer σ} {t : Tokenizer Cursor} {lx : Lexeme} (h : R s t)
    (hlx : t.lexeme? = some lx) :
    ∃ s', Id.run s.next? = some (f (t.token lx), s') ∧ R s' (t.after lx)

variable {R : Tokenizer σ → Tokenizer Cursor → Prop} {f : Token → Token}

theorem Follows.next?_of_none (hR : Follows R f) {s : Tokenizer σ} {t : Tokenizer Cursor}
    (h : R s t) (hlx : t.lexeme? = none) : Id.run s.next? = none := by
  have hs : s.lexeme? = none := by
    rw [lexeme?, hR.ahead_eq h, lexeme?_eq_none_iff.mp hlx]
    rfl
  rw [next?, hs]
  rfl

theorem Follows.take_eq (hR : Follows R f) (n : Nat) {s : Tokenizer σ} {t : Tokenizer Cursor}
    (h : R s t) : (Id.run (s.take n)).1 = (Id.run (t.take n)).1.map f := by
  induction n generalizing s t with
  | zero => rfl
  | succ n ih =>
    cases hlx : t.lexeme? with
    | none =>
      have hs : (s.next? : Id _) = none := hR.next?_of_none h hlx
      rw [run_take_succ_of_none hlx, take, hs]
      rfl
    | some lx =>
      obtain ⟨s', hnext, hs'⟩ := hR.step h hlx
      have hs : (s.next? : Id _) = some (f (t.token lx), s') := hnext
      rw [run_take_succ_of_some hlx, take, hs]
      exact congrArg (f (t.token lx) :: ·) (ih hs')

/-- **All the tokens of the source** are those of the cursor, each turned into one by `f`. -/
theorem Follows.tokens_eq (hR : Follows R f) {s : Tokenizer σ} {t : Tokenizer Cursor}
    (h : R s t) : s.tokens = t.tokens.map f := by
  rw [tokens, rest, hR.ahead_eq h]
  exact hR.take_eq _ h

end Follows

end Tokenizer

/-! ## Tokens that are flushed early -/

/-- **The kinds of tokens that are flushed while they are consumed**, and before their text is
cut. -/
def Kind.isFlushedEarly : Kind → Bool
  | .whitespace | .cdataOpen | .cdataClose | .identifier | .atIdentifier | .hashName
  | .variableName => true
  | _ => false

/-- What is left of a token if flushed characters are lost: a token that is flushed early keeps all
but its text. -/
def Token.forgotten (t : Token) : Token :=
  if t.kind.isFlushedEarly then { t with text := "" } else t

theorem Token.forgotten_eq_self_iff {t : Token} (h : t.text ≠ "") :
    t.forgotten = t ↔ t.kind.isFlushedEarly = false := by
  unfold Token.forgotten
  split
  · next hk =>
    rw [hk]
    refine ⟨fun heq => absurd (congrArg Token.text heq).symm h, fun hk => by cases hk⟩
  · next hk => exact ⟨fun _ => Bool.eq_false_iff.mpr hk, fun _ => rfl⟩

namespace Lexeme

theorem numeric_isFlushedEarly (negative : Bool) (cs : List Char) :
    (numeric negative cs).kind.isFlushedEarly = ((numeric negative cs).release == .consuming) := by
  simp only [numeric]
  split
  · rfl
  · split <;> rfl

theorem named_isFlushedEarly (cs : List Char) :
    (named cs).kind.isFlushedEarly = ((named cs).release == .consuming) := by
  simp only [named]
  split
  · split <;> rfl
  · rfl

/-- **The kind of a token decides** whether it is flushed while it is consumed. -/
theorem Rule.isFlushedEarly {o : Options} {c : Char} {cs : List Char} {lx : Lexeme}
    (h : Rule o c cs lx) : lx.kind.isFlushedEarly = (lx.release == .consuming) := by
  cases h with
  | numeric | negative => exact numeric_isFlushedEarly _ _
  | named => exact named_isFlushedEarly _
  | blockComment =>
    cases ho : o.commentMarkers with
    | true => rw [blockComment_of_markers ho]; rfl
    | false => rw [blockComment_of_whole ho]; rfl
  | _ => rfl

end Lexeme

namespace Forgetful

/-- A piece that is not flushed is whole. -/
theorem slice_of_committed_le {c : Cursor} {start : Nat} (h : c.committed ≤ start) (stop : Nat) :
    slice ⟨c⟩ start stop = c.slice start stop := by
  rw [slice, Nat.max_eq_left h]

/-- A piece that is flushed is lost. -/
theorem slice_of_le_committed {c : Cursor} {stop : Nat} (h : stop ≤ c.committed) (start : Nat) :
    slice ⟨c⟩ start stop = "" := by
  have hzero : stop - max start c.committed = 0 := by omega
  rw [slice, Cursor.slice, hzero, List.take_zero]

end Forgetful

namespace Tokenizer

/-- The same tokenizer, its source being without a memory for what was flushed. -/
def forgetful (t : Tokenizer Cursor) : Tokenizer Forgetful where
  source := ⟨t.source⟩
  config := t.config
  tracker := t.tracker
  closing := t.closing

/-- **Cutting a token out of a forgetful source**: the pieces of the payload before the characters
are consumed, and the text after it. -/
theorem run_cut_forgetful (t : Tokenizer Cursor) (lx : Lexeme) :
    Id.run (t.forgetful.cut lx) =
      ({ t.token lx with
          text :=
            if lx.release = .consuming then
              Forgetful.slice ⟨t.sourceAfter lx⟩ t.source.position (t.sourceAfter lx).position
            else
              Forgetful.slice ⟨t.source.skip lx.length⟩ t.source.position
                (t.source.skip lx.length).position
          payload := lx.payload.map fun span =>
            Forgetful.slice ⟨t.source⟩ (t.source.position + span.start)
              (t.source.position + span.stop) },
        (t.after lx).forgetful) := by
  obtain ⟨kind, n, payload, release, opensComment⟩ := lx
  cases release <;> cases payload <;> rfl

/-- **What is ahead is not flushed**, and no token changes that. -/
theorem committed_le_position_after {t : Tokenizer Cursor}
    (hc : t.source.committed ≤ t.source.position) (lx : Lexeme) :
    (t.after lx).source.committed ≤ (t.after lx).source.position := by
  have hskip : t.source.committed ≤ (t.source.skip lx.length).position :=
    Nat.le_min.mpr ⟨Nat.le_add_right_of_le hc, t.source.committed_le_stop⟩
  change (t.sourceAfter lx).committed ≤ (t.sourceAfter lx).position
  unfold sourceAfter
  split
  · exact hskip
  · exact Nat.max_le.mpr ⟨hskip, Nat.min_le_left ..⟩

theorem Run.committed_le_position {t u : Tokenizer Cursor} {tokens : List Token}
    (h : Run t tokens u) (hc : t.source.committed ≤ t.source.position) :
    u.source.committed ≤ u.source.position := by
  induction h with
  | done => exact hc
  | step head _ ih =>
    obtain ⟨lx, -, -, rfl⟩ := next?_eq_some_iff.mp head
    exact ih (committed_le_position_after hc lx)

/-- A token that is flushed while it is consumed is flushed up to its end. -/
theorem position_le_committed_sourceAfter (t : Tokenizer Cursor) {lx : Lexeme}
    (h : lx.release = .consuming) :
    (t.sourceAfter lx).position ≤ (t.sourceAfter lx).committed := by
  have hne : lx.release ≠ .never := fun hnever => by
    rw [h] at hnever
    cases hnever
  rw [sourceAfter, if_neg hne]
  refine Nat.le_trans (Nat.le_min.mpr ⟨Nat.le_refl _, ?_⟩) (Nat.le_max_right ..)
  exact (t.source.skip lx.length).position_le_stop

theorem isFlushedEarly_of_lexeme? {t : Tokenizer Cursor} {lx : Lexeme} (h : t.lexeme? = some lx) :
    lx.kind.isFlushedEarly = (lx.release == .consuming) := by
  obtain ⟨c, cs, -, ⟨-, rfl⟩ | ⟨-, rfl⟩⟩ := lexeme?_cases h
  · rfl
  · exact (Lexeme.rule_leading _ c cs).isFlushedEarly

/-- **A token of a forgetful source** is the token of the cursor without what was lost of it. -/
theorem run_next?_forgetful {t : Tokenizer Cursor} (hc : t.source.committed ≤ t.source.position)
    {lx : Lexeme} (h : t.lexeme? = some lx) :
    Id.run t.forgetful.next? = some ((t.token lx).forgotten, (t.after lx).forgetful) := by
  have hnext : Id.run t.forgetful.next? = some (Id.run (t.forgetful.cut lx)) := by
    have hlx : t.forgetful.lexeme? = some lx := h
    rw [next?, hlx]
    rfl
  have hpayload : (lx.payload.map fun span => Forgetful.slice ⟨t.source⟩
      (t.source.position + span.start) (t.source.position + span.stop)) = (t.token lx).payload :=
    congrArg lx.payload.map (funext fun span =>
      Forgetful.slice_of_committed_le (Nat.le_add_right_of_le hc) _)
  have hearly : (t.token lx).kind.isFlushedEarly = (lx.release == .consuming) :=
    isFlushedEarly_of_lexeme? h
  rw [hnext, run_cut_forgetful, hpayload, Token.forgotten, hearly]
  by_cases hr : lx.release = .consuming
  · rw [if_pos hr, if_pos (beq_iff_eq.mpr hr),
      Forgetful.slice_of_le_committed (t.position_le_committed_sourceAfter hr)]
  · rw [if_neg hr, if_neg (fun h => hr (beq_iff_eq.mp h)),
      Forgetful.slice_of_committed_le (c := t.source.skip lx.length) hc]
    rfl

/-- **A forgetful source is in step** with the cursor inside it. -/
theorem follows_forgetful :
    Follows (fun s t => s = t.forgetful ∧ t.source.committed ≤ t.source.position)
      Token.forgotten where
  ahead_eq := by
    rintro s t ⟨rfl, -⟩
    rfl
  step := by
    rintro s t lx ⟨rfl, hc⟩ hlx
    exact ⟨_, run_next?_forgetful hc hlx, rfl, committed_le_position_after hc lx⟩

/-! ## The tokens -/

theorem Run.text_ne_empty {t u : Tokenizer Cursor} {tokens : List Token} (h : Run t tokens u)
    (hi : t.ClosesAhead) : ∀ token ∈ tokens, token.text ≠ "" := by
  induction h with
  | done => exact fun _ h => nomatch h
  | step head _ ih =>
    obtain ⟨lx, hlx, rfl, rfl⟩ := next?_eq_some_iff.mp head
    intro token hmem
    rcases List.mem_cons.mp hmem with rfl | hmem
    · intro hempty
      have hlen := length_text_token (length_le_ahead hi hlx)
      rw [hempty] at hlen
      exact absurd hlen (Nat.ne_of_lt (Lexeme.length_pos_of_next? hlx))
    · exact ih (closesAhead_after hlx) token hmem

/-- **What a source may forget.**  In a run over any window nothing that is ahead is flushed.  A
source that loses what is flushed gives the same tokens at the same places, with the same payloads,
and loses the texts of those tokens that are flushed early.  So it gives the tokens of the window
exactly if none of them is of such a kind. -/
theorem tokens_forgetful (text : List Char) (config : Config) {t : Tokenizer Cursor}
    (h : ofConfig? text config = .ok t) :
    (∀ tokens u, Run t tokens u → u.source.committed ≤ u.source.position) ∧
    (ofSource (Forgetful.mk t.source) config).tokens = t.tokens.map Token.forgotten ∧
    ((ofSource (Forgetful.mk t.source) config).tokens = t.tokens ↔
      ∀ token ∈ t.tokens, token.kind.isFlushedEarly = false) := by
  have hne := (run_rest t).text_ne_empty (closesAhead_of_ofConfig? h)
  obtain ⟨ht, hc⟩ : ofSource (Forgetful.mk t.source) config = t.forgetful ∧
      t.source.committed ≤ t.source.position := by
    obtain ⟨w, rfl⟩ := exists_window_of_ofConfig? h
    exact ⟨rfl, Nat.le_refl _⟩
  rw [ht, follows_forgetful.tokens_eq ⟨rfl, hc⟩]
  refine ⟨fun tokens u hrun => hrun.committed_le_position hc, rfl, ?_⟩
  calc t.tokens.map Token.forgotten = t.tokens
      ↔ t.tokens.map Token.forgotten = t.tokens.map id := by rw [List.map_id]
    _ ↔ ∀ token ∈ t.tokens, token.forgotten = token := List.map_inj_left
    _ ↔ ∀ token ∈ t.tokens, token.kind.isFlushedEarly = false :=
        forall₂_congr fun token hmem => Token.forgotten_eq_self_iff (hne token hmem)

/-- A name and the white space behind it lose their texts, and a number keeps its own. -/
theorem tokens_forgetful_of_name :
    ∃ t, ofConfig? ['x', 'a', ' ', '1'] { start := 1 } = .ok t ∧
      ((ofSource (Forgetful.mk t.source) { start := 1 }).tokens.map fun token =>
        (token.kind, token.start, token.text)) =
        [(.identifier, 1, ""), (.whitespace, 2, ""), (.number, 3, "1")] := by
  refine ⟨_, rfl, ?_⟩
  rw [(tokens_forgetful ['x', 'a', ' ', '1'] { start := 1 } rfl).2.1]
  rfl

/-- **Not every token survives being flushed**: the text of a name does not. -/
theorem not_forall_tokens_forgetful_eq :
    ¬∀ (text : List Char) (config : Config) (t : Tokenizer Cursor), ofConfig? text config = .ok t →
      (ofSource (Forgetful.mk t.source) config).tokens = t.tokens := by
  intro h
  have hname := congrArg (List.map Token.text) (h ['a'] {} _ rfl)
  exact absurd hname (by decide)

end Tokenizer

end StyleLex
