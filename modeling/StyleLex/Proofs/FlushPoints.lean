import StyleLex.Proofs.Forgetting
import StyleLex.Proofs.History
import StyleLex.Proofs.Recording
import StyleLex.Proofs.TokenShape

/-!
# Proofs/FlushPoints — a token is flushed up to its end, or not at all

A flush happens while a token is consumed, or when it is complete, or not at all.  Which of these it
is, is a matter of the rule that the token comes from.  Seen from outside the first two are the
same, and whether a token is flushed is told by its kind, and for a comment by its text
(`isFlushed`, `Rule.isFlushed_eq`).

So what a recorder lists in a run are the ends of the tokens that are flushed (`flushPoints`,
`run_take_recorded`), and the committed position is the last of them (`Run.committed_eq`).
-/

namespace StyleLex

open Chars

/-! ## Tokens that are flushed -/

/-- **Whether a token is flushed.**  Of the comments it is the block comments, and if these are
split their `*/`. -/
def isFlushed (o : Options) (kind : Kind) (text : List Char) : Bool :=
  match kind with
  | .whitespace | .cdataOpen | .cdataClose | .identifier | .atIdentifier | .hashName
  | .variableName | .number | .percentage | .dimension | .unicodeRange => true
  | .comment => if o.commentMarkers then text == ['*', '/'] else ['/', '*'].isPrefixOf text
  | _ => false

/-- The positions after the tokens of a text, the first of which begins at `p`. -/
def stops : (p : Nat) → List Token → List Nat
  | _, [] => []
  | p, token :: tokens =>
    (p + token.text.toList.length) :: stops (p + token.text.toList.length) tokens

/-- **The positions after the tokens that are flushed.** -/
def flushPoints (o : Options) (p : Nat) (tokens : List Token) : List Nat :=
  ((tokens.zip (stops p tokens)).filter fun x => isFlushed o x.1.kind x.1.text.toList).map Prod.snd

theorem length_stops (p : Nat) (tokens : List Token) : (stops p tokens).length = tokens.length := by
  induction tokens generalizing p with
  | nil => rfl
  | cons token tokens ih => exact congrArg (· + 1) (ih _)

theorem lt_of_mem_stops {p : Nat} {tokens : List Token} (h : ∀ token ∈ tokens, token.text ≠ "") :
    ∀ q ∈ stops p tokens, p < q := by
  induction tokens generalizing p with
  | nil => exact fun _ h => nomatch h
  | cons token tokens ih =>
    obtain ⟨htoken, htokens⟩ := List.forall_mem_cons.mp h
    have hpos : 0 < token.text.toList.length := by simpa [List.length_pos_iff] using htoken
    intro q hq
    rcases List.mem_cons.mp hq with rfl | hq
    · exact Nat.lt_add_of_pos_right hpos
    · exact Nat.lt_trans (Nat.lt_add_of_pos_right hpos) (ih htokens q hq)

/-- **Tokens end one after the other.** -/
theorem pairwise_stops {p : Nat} {tokens : List Token} (h : ∀ token ∈ tokens, token.text ≠ "") :
    (stops p tokens).Pairwise (· < ·) := by
  induction tokens generalizing p with
  | nil => exact .nil
  | cons token tokens ih =>
    have htokens := (List.forall_mem_cons.mp h).2
    exact .cons (lt_of_mem_stops htokens) (ih htokens)

theorem flushPoints_sublist (o : Options) (p : Nat) (tokens : List Token) :
    (flushPoints o p tokens).Sublist (stops p tokens) := by
  have hall : (tokens.zip (stops p tokens)).map Prod.snd = stops p tokens :=
    List.map_snd_zip (Nat.le_of_eq (length_stops p tokens))
  rw [flushPoints]
  conv_rhs => rw [← hall]
  exact List.filter_sublist.map Prod.snd

theorem flushPoints_cons (o : Options) (p : Nat) (token : Token) (tokens : List Token) :
    flushPoints o p (token :: tokens) =
      (if isFlushed o token.kind token.text.toList then [p + token.text.toList.length] else []) ++
        flushPoints o (p + token.text.toList.length) tokens := by
  rw [flushPoints, stops, List.zip_cons_cons, List.filter_cons]
  split <;> rfl

namespace Lexeme

/-! ## The rules -/

theorem numeric_isFlushed (o : Options) (negative : Bool) (cs text : List Char) :
    isFlushed o (numeric negative cs).kind text = ((numeric negative cs).release != .never) := by
  simp only [numeric]
  split
  · rfl
  · split <;> rfl

theorem named_isFlushed (o : Options) (cs text : List Char) :
    isFlushed o (named cs).kind text = ((named cs).release != .never) := by
  simp only [named]
  split
  · split <;> rfl
  · rfl

/-- **Whether a token is flushed** is told by its kind and text. -/
theorem Rule.isFlushed_eq {o : Options} {c : Char} {cs : List Char} {lx : Lexeme}
    (h : Rule o c cs lx) :
    isFlushed o lx.kind ((c :: cs).take lx.length) = (lx.release != .never) := by
  cases h with
  | numeric | negative => exact numeric_isFlushed ..
  | named => exact named_isFlushed ..
  | lineComment cs =>
    -- it has neither the text of a `*/` nor that of a block comment
    change isFlushed o .comment (('/' :: '/' :: cs).take (2 + Extent.line cs)) = false
    rw [take_two_add]
    cases ho : o.commentMarkers <;> rw [isFlushed, ho] <;> rfl
  | blockComment cs =>
    cases ho : o.commentMarkers with
    | true =>
      rw [blockComment_of_markers ho, take_two_add]
      simp [isFlushed, ho]
    | false =>
      rw [blockComment_of_whole ho, Nat.add_assoc, take_two_add]
      simp [isFlushed, ho]
  | _ => rfl

end Lexeme

namespace Tokenizer

/-! ## One token -/

/-- **Only a comment that is split waits for its `*/`.** -/
def SplitsComments (t : Tokenizer Cursor) : Prop :=
  t.closing = true → t.config.options.commentMarkers = true

theorem splitsComments_after {t : Tokenizer Cursor} {lx : Lexeme} (h : t.lexeme? = some lx) :
    (t.after lx).SplitsComments := by
  intro ho
  obtain ⟨c, cs, -, ⟨-, rfl⟩ | ⟨-, rfl⟩⟩ := lexeme?_cases h
  · cases ho
  · exact ((Lexeme.rule_leading _ c cs).opensComment_cases ho).1

/-- **A tokenizer in the middle of a run**: what it has announced stands ahead, and nothing that is
ahead is flushed. -/
structure Underway (t : Tokenizer Cursor) : Prop where
  closesAhead : t.ClosesAhead
  splitsComments : t.SplitsComments
  committed_le : t.source.committed ≤ t.source.position

theorem underway_ofSource {c : Cursor} (h : c.committed ≤ c.position) (config : Config) :
    Underway (ofSource c config) where
  closesAhead := closesAhead_ofSource c config
  splitsComments := fun hc => Bool.noConfusion hc
  committed_le := h

namespace Underway

variable {t : Tokenizer Cursor} (h : Underway t) {lx : Lexeme} (hlx : t.lexeme? = some lx)

include h hlx

theorem after : Underway (t.after lx) where
  closesAhead := closesAhead_after hlx
  splitsComments := splitsComments_after hlx
  committed_le := committed_le_position_after h.committed_le lx

/-- Whether the next token is flushed can be seen from it. -/
theorem isFlushed_token :
    isFlushed t.config.options (t.token lx).kind (t.token lx).text.toList =
      (lx.release != .never) := by
  rw [token_eq (length_le_ahead h.closesAhead hlx), String.toList_ofList]
  obtain ⟨c, cs, hcs, ⟨hc, rfl⟩ | ⟨-, rfl⟩⟩ := lexeme?_cases hlx
  · obtain ⟨ds, hds⟩ := h.closesAhead hc
    rw [hds]
    simp [isFlushed, Lexeme.commentClose, h.splitsComments hc]
  · rw [hcs]
    exact (Lexeme.rule_leading _ c cs).isFlushed_eq

/-- The next token ends where the tokenizer stands after it. -/
theorem position_after :
    (t.after lx).source.position =
      t.source.position + (t.token lx).text.toList.length := by
  have hle := length_le_ahead h.closesAhead hlx
  rw [Tokenizer.position_after hle, length_text_token hle]

/-- **What a recorder lists for a token** is its end, if the token is flushed. -/
theorem flushesWith_eq :
    t.flushesWith lx =
      if isFlushed t.config.options (t.token lx).kind (t.token lx).text.toList then
        [(t.after lx).source.position]
      else [] := by
  have hle := length_le_ahead h.closesAhead hlx
  rw [h.isFlushed_token hlx, flushesWith, Tokenizer.position_after hle, Cursor.position_skip hle]
  cases lx.release <;> rfl

/-- **A token that is flushed is flushed up to its end.** -/
theorem committed_after :
    (t.after lx).source.committed =
      if isFlushed t.config.options (t.token lx).kind (t.token lx).text.toList then
        (t.after lx).source.position
      else t.source.committed := by
  have hle := length_le_ahead h.closesAhead hlx
  have hposition := Tokenizer.position_after hle
  have hstop : (t.source.skip lx.length).position ≤ t.source.window.stop :=
    (t.source.skip lx.length).position_le_stop
  have hlimit : t.source.committed ≤ (t.after lx).source.position :=
    hposition ▸ Nat.le_add_right_of_le h.committed_le
  have hafter : (t.after lx).source.committed =
      if lx.release = .never then t.source.committed
      else
        max t.source.committed (min (t.source.skip lx.length).position t.source.window.stop) := by
    change (t.sourceAfter lx).committed = _
    unfold sourceAfter
    split <;> rfl
  rw [h.isFlushed_token hlx, hafter]
  by_cases hr : lx.release = .never
  · rw [if_pos hr, hr]
    rfl
  · -- the end of the token is in the window and not before what is flushed, so no limit shows
    rw [if_neg hr, if_pos (bne_iff_ne.mpr hr), Nat.min_eq_left hstop, Cursor.position_skip hle,
      ← hposition]
    exact Nat.max_eq_right hlimit

end Underway

/-! ## Runs -/

/-- The tokens that are taken are those of a run. -/
theorem run_of_take (n : Nat) (t : Tokenizer Cursor) :
    Run t (Id.run (t.take n)).1 (Id.run (t.take n)).2 := by
  induction n generalizing t with
  | zero => exact .done t
  | succ n ih =>
    cases hlx : t.lexeme? with
    | none =>
      rw [run_take_succ_of_none hlx]
      exact .done t
    | some lx =>
      rw [run_take_succ_of_some hlx]
      exact .of_lexeme? hlx (ih (t.after lx))

variable {t u : Tokenizer Cursor} {tokens : List Token}

/-- Tokens say of themselves where they end. -/
theorem Run.map_stop (hrun : Run t tokens u) (h : Underway t) :
    tokens.map Token.stop = (stops t.source.position tokens).map t.shift := by
  induction hrun with
  | done => rfl
  | step head _ ih =>
    obtain ⟨lx, hlx, rfl, rfl⟩ := next?_eq_some_iff.mp head
    have htail := ih (h.after hlx)
    rw [h.position_after hlx] at htail
    rw [List.map_cons, stops, List.map_cons, htail]
    refine congrArg (· :: _) ?_
    rw [token_eq (length_le_ahead h.closesAhead hlx), String.toList_ofList,
      List.length_take_of_le (length_le_ahead h.closesAhead hlx)]

/-- **What is committed** is the end of the last token that was flushed. -/
theorem Run.committed_eq (hrun : Run t tokens u) (h : Underway t) :
    u.source.committed =
      (flushPoints t.config.options t.source.position tokens).getLast?.getD
        t.source.committed := by
  induction hrun with
  | done => rfl
  | @step t _ u _ tokens head _ ih =>
    obtain ⟨lx, hlx, rfl, rfl⟩ := next?_eq_some_iff.mp head
    have htail : u.source.committed =
        (flushPoints t.config.options (t.after lx).source.position tokens).getLast?.getD
          (t.after lx).source.committed := ih (h.after hlx)
    rw [htail, h.committed_after hlx, flushPoints_cons, ← h.position_after hlx,
      List.getLast?_append]
    cases (flushPoints t.config.options (t.after lx).source.position tokens).getLast? with
    | some p => rfl
    | none => split <;> rfl

theorem run_take_recorded_of_none (h : t.lexeme? = none) (flushes : List Nat) (n : Nat) :
    Id.run ((t.recorded flushes).take (n + 1)) = ([], t.recorded flushes) := by
  have hnext : ((t.recorded flushes).next? : Id _) = none :=
    (run_next?_recorded t flushes).trans (by rw [h]; rfl)
  rw [take, hnext]
  rfl

theorem run_take_recorded_of_some {lx : Lexeme} (h : t.lexeme? = some lx) (flushes : List Nat)
    (n : Nat) :
    Id.run ((t.recorded flushes).take (n + 1)) =
      (t.token lx :: (Id.run (((t.after lx).recorded (flushes ++ t.flushesWith lx)).take n)).1,
        (Id.run (((t.after lx).recorded (flushes ++ t.flushesWith lx)).take n)).2) := by
  have hnext : ((t.recorded flushes).next? : Id _) =
      some (t.token lx, (t.after lx).recorded (flushes ++ t.flushesWith lx)) :=
    (run_next?_recorded t flushes).trans (by rw [h]; rfl)
  rw [take, hnext]
  rfl

/-- **A run over a recorder** is the run over the cursor inside it, and what is listed are the ends
of the tokens that are flushed. -/
theorem run_take_recorded (n : Nat) {t : Tokenizer Cursor} (h : Underway t) (flushes : List Nat) :
    Id.run ((t.recorded flushes).take n) =
      ((Id.run (t.take n)).1, (Id.run (t.take n)).2.recorded
        (flushes ++
          flushPoints t.config.options t.source.position (Id.run (t.take n)).1)) := by
  induction n generalizing t flushes with
  | zero => exact congrArg (fun flushes => ([], t.recorded flushes)) (List.append_nil _).symm
  | succ n ih =>
    cases hlx : t.lexeme? with
    | none =>
      rw [run_take_succ_of_none hlx, run_take_recorded_of_none hlx]
      exact congrArg (fun flushes => ([], t.recorded flushes)) (List.append_nil _).symm
    | some lx =>
      have htail := ih (h.after hlx) (flushes ++ t.flushesWith lx)
      rw [run_take_recorded_of_some hlx, htail, run_take_succ_of_some hlx, flushPoints_cons,
        ← h.position_after hlx, ← h.flushesWith_eq hlx, List.append_assoc]
      rfl

/-- A cursor that only advances flushes nothing that is ahead. -/
theorem committed_le_position_advances {c : Cursor} (h : c.committed ≤ c.position)
    (steps : List (Nat × Bool)) :
    (c.afterActs (steps.map fun s => .advance s.1 s.2)).committed ≤
      (c.afterActs (steps.map fun s => .advance s.1 s.2)).position := by
  induction steps generalizing c with
  | nil => exact h
  | cons s steps ih =>
    refine ih (c := c.act (.advance s.1 s.2)) ?_
    have hskip : c.committed ≤ (c.skip s.1).position :=
      Nat.le_min.mpr ⟨Nat.le_add_right_of_le h, c.committed_le_stop⟩
    obtain ⟨n, _ | _⟩ := s
    · exact hskip
    · exact Nat.max_le.mpr ⟨hskip, Nat.min_le_left ..⟩

/-- **Flushes are ends of tokens.**  Take any window, advance in it as you like, and run over what
is left.  A recorder gives the tokens and the states of the cursor inside it.  What it lists are the
ends of the tokens that are flushed, each of them once and in order, and the committed position is
the last of them. -/
theorem flushes_are_stops (w : Window) (steps : List (Nat × Bool)) (config : Config) (n : Nat) :
    ∃ c tokens u flushes,
      c = (Cursor.atStart w).afterActs (steps.map fun s => .advance s.1 s.2) ∧
      Id.run ((ofSource c config).take n) = (tokens, u) ∧
      Id.run ((ofSource (Recorder.around c) config).take n) = (tokens, u.recorded flushes) ∧
      flushes = flushPoints config.options c.position tokens ∧
      tokens.map Token.stop =
        (stops c.position tokens).map (shiftPosition config.positionOffset) ∧
      flushes.Pairwise (· < ·) ∧
      u.source.committed = flushes.getLast?.getD c.committed ∧
      u.source.committed ≤ u.source.position := by
  have hc := committed_le_position_advances (c := Cursor.atStart w) (Nat.le_refl _) steps
  have h := underway_ofSource hc config
  have hrun := run_of_take n (ofSource
    ((Cursor.atStart w).afterActs (steps.map fun s => .advance s.1 s.2)) config)
  refine ⟨_, _, _, _, rfl, rfl, run_take_recorded n h [], rfl, hrun.map_stop h, ?_,
    hrun.committed_eq h, hrun.committed_le_position hc⟩
  exact (pairwise_stops (hrun.text_ne_empty h.closesAhead)).sublist (flushPoints_sublist ..)

/-- A name, white space, a line comment, white space, a delimiter, a dimension, a block comment and
a resource. -/
example : flushPoints {} 0 (tokenize "a // b\n\x7b12px/**/url(x)") = [1, 2, 7, 12, 16] := by rfl

end Tokenizer

end StyleLex
