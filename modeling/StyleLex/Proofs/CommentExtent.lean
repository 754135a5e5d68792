import StyleLex.Proofs.Stops
import StyleLex.Proofs.Tiling
import StyleLex.Proofs.Writing

/-!
# Proofs/CommentExtent — how far a comment reaches

A line comment ends before the first end of a line behind its `//`, and a block comment with the
first `*/` behind its `/*`, a `*/` being two characters that both stand in the window.  The scanners
find these places (`Extent.endsAt_line`, `Extent.endsAt_blockComment`) although they look at one or
two characters at a time: what they go over is no stop.

`comment_extent` says it in positions of the text: where the value ends, where the token ends, and
with the option `commentMarkers` what the next token is.  Nothing else in a comment has a meaning.
-/

namespace StyleLex

open Chars

namespace Grammar

/-- A carriage return, line feed or form feed stands at `i`. -/
def LineEndAt (cs : List Char) (i : Nat) : Prop := ∃ c, cs[i]? = some c ∧ isLineEnd c = true

/-- A `*/` stands at `i`, both of its characters being there. -/
def CommentEndAt (cs : List Char) (i : Nat) : Prop :=
  cs[i]? = some '*' ∧ cs[i + 1]? = some '/'

/-- **Counting from the beginning of the text**, where the scan begins at the position `k`. -/
theorem EndsAt.of_drop {Stop : List Char → Nat → Prop} {cs : List Char} {k n : Nat}
    (hstop : ∀ i, Stop (cs.drop k) i ↔ Stop cs (k + i)) (hk : k ≤ cs.length)
    (h : EndsAt (Stop (cs.drop k)) (cs.drop k).length n) :
    EndsAt (fun i => k ≤ i ∧ Stop cs i) cs.length (k + n) := by
  have hbefore : ∀ i < k, ¬(k ≤ i ∧ Stop cs i) := fun i hi hle => absurd hle.1 (Nat.not_le.mpr hi)
  have hshift := h.shift hbefore fun i => by rw [hstop, and_iff_right (Nat.le_add_right k i)]
  rwa [List.length_drop, Nat.add_sub_cancel' hk] at hshift

theorem lineEndAt_drop (cs : List Char) (k i : Nat) :
    LineEndAt (cs.drop k) i ↔ LineEndAt cs (k + i) := by
  rw [LineEndAt, LineEndAt, List.getElem?_drop]

theorem commentEndAt_drop (cs : List Char) (k i : Nat) :
    CommentEndAt (cs.drop k) i ↔ CommentEndAt cs (k + i) := by
  rw [CommentEndAt, CommentEndAt, List.getElem?_drop, List.getElem?_drop, Nat.add_assoc]

end Grammar

/-! ## The scanners -/

namespace Extent

open Grammar

/-- **The rest of a line** ends before the first character that ends a line. -/
theorem endsAt_line (cs : List Char) : EndsAt (LineEndAt cs) cs.length (line cs) := by
  induction cs with
  | nil => exact .none fun _ ⟨c, hc, _⟩ => by simp at hc
  | cons c cs ih =>
    cases hc : isLineEnd c with
    | true =>
      have hzero : line (c :: cs) = 0 := by simp [line, run, hc]
      rw [hzero]
      exact .zero ⟨c, rfl, hc⟩
    | false =>
      have hsucc : line (c :: cs) = 1 + line cs := by simp [line, run, hc, Nat.add_comm]
      have hbefore : ∀ i < 1, ¬LineEndAt (c :: cs) i := by
        rintro i hi ⟨d, hget, hd⟩
        obtain rfl := Nat.lt_one_iff.mp hi
        obtain rfl := Option.some.inj hget
        rw [hc] at hd
        cases hd
      have hend := ih.shift hbefore fun i => (lineEndAt_drop (c :: cs) 1 i).symm
      rwa [Nat.add_comm 1 cs.length, ← hsucc] at hend

/-- **The inside of a block comment** ends at the first `*/`. -/
theorem endsAt_blockComment (cs : List Char) :
    EndsAt (CommentEndAt cs) cs.length (blockComment cs) := by
  fun_induction blockComment cs with
  | case1 => exact .none fun _ h => by simp [CommentEndAt] at h
  | case2 c cs hc =>
    obtain ⟨rfl, hhead⟩ := hc
    exact .zero ⟨rfl, List.head?_eq_getElem?.symm.trans hhead⟩
  | case3 c cs hc ih =>
    have hbefore : ∀ i < 1, ¬CommentEndAt (c :: cs) i := by
      rintro i hi ⟨hstar, hslash⟩
      obtain rfl := Nat.lt_one_iff.mp hi
      exact hc ⟨Option.some.inj hstar, List.head?_eq_getElem?.trans hslash⟩
    have hend := ih.shift hbefore fun i => (commentEndAt_drop (c :: cs) 1 i).symm
    rwa [Nat.add_comm 1 cs.length] at hend

end Extent

/-! ## Tokens -/

namespace Tokenizer

open Grammar Lexeme

/-- **The comment that is cut from `t` up to the position `stop`**, its value being what stands
behind the opener and before the position `inside`. -/
structure CutsComment (t : Tokenizer Cursor) (token : Token) (inside stop : Nat) : Prop where
  kind_eq : token.kind = .comment
  start_eq : token.start = t.shift t.source.position
  stop_eq : token.stop = t.shift stop
  text_eq : token.text = t.source.slice t.source.position stop
  location_eq : token.location = t.location
  payload_eq : token.payload = .text (t.source.slice (t.source.position + 2) inside)

/-- **The places of a `*/`** behind an opener of two characters. -/
def commentEnds (t : Tokenizer Cursor) : Set Nat :=
  {i | t.source.position + 2 ≤ i ∧ CommentEndAt t.source.window.text i}

/-- What stands behind an opener, by its position. -/
theorem drop_position_add_two {t : Tokenizer Cursor} {c d : Char} {ds : List Char}
    (h : t.source.ahead = c :: d :: ds) :
    ds = t.source.window.text.drop (t.source.position + 2) ∧
      t.source.position + 2 ≤ t.source.window.text.length := by
  have hlen := congrArg List.length h
  rw [Cursor.ahead] at h
  rw [Cursor.length_ahead, Cursor.left, Window.stop] at hlen
  simp only [List.length_cons] at hlen
  refine ⟨?_, by omega⟩
  rw [← List.drop_drop, h]
  rfl

/-- **A comment that was measured** has its value behind the opener. -/
theorem cutsComment_token {t : Tokenizer Cursor} {cs : List Char} (hc : t.closing = false)
    (hcs : t.source.ahead = '/' :: cs) {lx : Lexeme} {n : Nat}
    (hlx : leading t.config.options '/' cs = lx) (hk : lx.kind = .comment)
    (hp : lx.payload = .text ⟨2, 2 + n⟩) :
    Id.run t.next? = some (t.token lx, t.after lx) ∧
      t.CutsComment (t.token lx) (t.source.position + 2 + n) (t.source.position + lx.length) ∧
      (t.after lx).source.position = t.source.position + lx.length := by
  have hlx' : t.lexeme? = some lx := hlx ▸ lexeme?_of_cons hcs hc
  have hle := length_le_ahead (fun h => Bool.noConfusion (hc.symm.trans h)) hlx'
  have hskip := Cursor.position_skip hle
  refine ⟨hlx ▸ next?_of_cons hcs hc, ⟨hk, rfl, ?_, ?_, rfl, ?_⟩, position_after hle⟩
  · exact congrArg t.shift hskip
  · exact congrArg (t.source.slice t.source.position) hskip
  · rw [token, hp, Nat.add_assoc]
    rfl

/-- **The `*/` of a comment** that was split is the next token. -/
theorem next?_of_closing {t : Tokenizer Cursor} (hi : t.ClosesAhead) (hc : t.closing = true) :
    ∃ t', Id.run t.next? = some ({ kind := .comment
                                   start := t.shift t.source.position
                                   stop := t.shift (t.source.position + 2)
                                   text := "*/"
                                   location := t.location
                                   payload := .none }, t') ∧
      t'.source.position = t.source.position + 2 ∧ t'.closing = false := by
  obtain ⟨ds, hds⟩ := hi hc
  have hle : commentClose.length ≤ t.source.ahead.length := by
    rw [hds]
    exact Nat.le_add_left ..
  refine ⟨t.after commentClose, ?_, position_after hle, rfl⟩
  rw [run_next?, lexeme?_of_closing hds hc, Option.map_some, token_eq hle, hds]
  rfl

/-! ### Line comments -/

theorem next?_of_line {t : Tokenizer Cursor} (hc : t.closing = false) {ds : List Char}
    (hds : t.source.ahead = '/' :: '/' :: ds) :
    ∃ j token t', EndsAt (fun i => t.source.position + 2 ≤ i ∧
        LineEndAt t.source.window.text i) t.source.window.stop j ∧
      Id.run t.next? = some (token, t') ∧ t.CutsComment token j j ∧
      t'.source.position = j ∧ t'.closing = false := by
  obtain ⟨hdrop, hle⟩ := drop_position_add_two hds
  have hlead : leading t.config.options '/' ('/' :: ds) = lineComment ds := rfl
  obtain ⟨hnext, hcuts, hpos⟩ := cutsComment_token hc hds hlead rfl rfl
  have hstop : t.source.position + (lineComment ds).length =
      t.source.position + 2 + Extent.line ds := (Nat.add_assoc ..).symm
  have hends := Extent.endsAt_line ds
  rw [hdrop] at hends
  rw [hstop] at hcuts hpos
  refine ⟨_, _, _, ?_, hnext, hcuts, hpos, rfl⟩
  rw [hdrop]
  exact hends.of_drop (lineEndAt_drop _ _) hle

/-! ### Block comments -/

/-- The scan of a block comment, by positions. -/
theorem endsAt_of_block {t : Tokenizer Cursor} {ds : List Char}
    (hds : t.source.ahead = '/' :: '*' :: ds) :
    EndsAt (· ∈ t.commentEnds) t.source.window.stop
      (t.source.position + 2 + Extent.blockComment ds) := by
  obtain ⟨hdrop, hle⟩ := drop_position_add_two hds
  have hends := Extent.endsAt_blockComment ds
  rw [hdrop] at hends ⊢
  exact hends.of_drop (commentEndAt_drop _ _) hle

/-- The first `*/` behind the opener ends the inside. -/
theorem inside_of_isLeast {t : Tokenizer Cursor} {ds : List Char} {j : Nat}
    (hds : t.source.ahead = '/' :: '*' :: ds)
    (hj : IsLeast t.commentEnds j) :
    j = t.source.position + 2 + Extent.blockComment ds ∧ Extent.blockComment ds < ds.length := by
  obtain ⟨hdrop, hle⟩ := drop_position_add_two hds
  obtain rfl := (EndsAt.stop hj).unique (endsAt_of_block hds)
  obtain ⟨hlt, -⟩ := List.getElem?_eq_some_iff.mp hj.1.2.1
  have hlen := congrArg List.length hdrop
  rw [List.length_drop] at hlen
  exact ⟨rfl, by omega⟩

theorem next?_of_whole {t : Tokenizer Cursor} (hc : t.closing = false) {ds : List Char}
    (hds : t.source.ahead = '/' :: '*' :: ds) (ho : t.config.options.commentMarkers = false)
    {j : Nat} (hj : IsLeast t.commentEnds j) :
    ∃ token t', Id.run t.next? = some (token, t') ∧ t.CutsComment token j (j + 2) ∧
      t'.source.position = j + 2 ∧ t'.closing = false := by
  obtain ⟨rfl, hlt⟩ := inside_of_isLeast hds hj
  have hlead : leading t.config.options '/' ('*' :: ds) = blockComment t.config.options ds := rfl
  rw [blockComment_of_whole ho, if_pos hlt] at hlead
  obtain ⟨hnext, hcuts, hpos⟩ := cutsComment_token hc hds hlead rfl rfl
  simp only [← Nat.add_assoc] at hcuts hpos
  exact ⟨_, _, hnext, hcuts, hpos, rfl⟩

theorem next?_of_split {t : Tokenizer Cursor} (hc : t.closing = false) {ds : List Char}
    (hds : t.source.ahead = '/' :: '*' :: ds) (ho : t.config.options.commentMarkers = true)
    {j : Nat} (hj : IsLeast t.commentEnds j) :
    ∃ token t' close t'', Id.run t.next? = some (token, t') ∧ t.CutsComment token j j ∧
      t'.source.position = j ∧ Id.run t'.next? = some (close, t'') ∧
      close = { kind := .comment
                start := t.shift j
                stop := t.shift (j + 2)
                text := "*/"
                location := t'.location
                payload := .none } ∧
      t''.source.position = j + 2 ∧ t''.closing = false := by
  obtain ⟨rfl, hlt⟩ := inside_of_isLeast hds hj
  have hlead : leading t.config.options '/' ('*' :: ds) = blockComment t.config.options ds := rfl
  rw [blockComment_of_markers ho, decide_eq_true hlt] at hlead
  obtain ⟨hnext, hcuts, hpos⟩ := cutsComment_token hc hds hlead rfl rfl
  have hcloses := closesAhead_after (hlead ▸ lexeme?_of_cons hds hc)
  simp only [← Nat.add_assoc] at hcuts hpos
  obtain ⟨t'', hclose, hpos', hc''⟩ := next?_of_closing hcloses rfl
  rw [hpos] at hclose hpos'
  exact ⟨_, _, _, t'', hnext, hcuts, hpos, hclose, rfl, hpos', hc''⟩

theorem next?_of_open {t : Tokenizer Cursor} (hc : t.closing = false) {ds : List Char}
    (hds : t.source.ahead = '/' :: '*' :: ds) (hnone : ∀ i, i ∉ t.commentEnds) :
    ∃ token t', Id.run t.next? = some (token, t') ∧
      t.CutsComment token t.source.window.stop t.source.window.stop ∧
      t'.source.position = t.source.window.stop ∧ t'.closing = false ∧
      Id.run t'.next? = none := by
  obtain ⟨hdrop, hle⟩ := drop_position_add_two hds
  have hstop := (EndsAt.none hnone).unique (endsAt_of_block hds)
  have hnot : ¬Extent.blockComment ds < ds.length := by
    have hlen := congrArg List.length hdrop
    rw [List.length_drop] at hlen
    have hstop' : t.source.window.text.length = _ := hstop
    omega
  -- without a `*/` it does not matter whether the option is on
  have hopen : ∃ release, leading t.config.options '/' ('*' :: ds) =
      { kind := .comment
        length := 2 + Extent.blockComment ds
        payload := .text ⟨2, 2 + Extent.blockComment ds⟩
        release := release } := by
    cases ho : t.config.options.commentMarkers with
    | true => exact ⟨_, (blockComment_of_markers ho ds).trans (by rw [decide_eq_false hnot])⟩
    | false => exact ⟨_, (blockComment_of_whole ho ds).trans (by rw [if_neg hnot]; rfl)⟩
  obtain ⟨release, hlead⟩ := hopen
  obtain ⟨hnext, hcuts, hpos⟩ := cutsComment_token hc hds hlead rfl rfl
  simp only [← Nat.add_assoc] at hcuts hpos
  rw [← hstop] at hcuts hpos
  refine ⟨_, _, hnext, hcuts, hpos, rfl, ?_⟩
  rw [next?_eq_none_iff, ahead_eq_nil_iff, window_after]
  exact hpos

/-! ### What a comment holds -/

theorem payload_token {t : Tokenizer Cursor} {d : Char} {value more : List Char}
    (hcs : t.source.ahead = '/' :: d :: (value ++ more)) {lx : Lexeme}
    (hlx : leading t.config.options '/' (d :: (value ++ more)) = lx)
    (hp : lx.payload = .text ⟨2, 2 + value.length⟩) :
    (t.token lx).payload = .text (String.ofList value) := by
  have hcut := Span.cut_behind ['/', d] (value ++ more) value.length
  rw [List.take_left] at hcut
  rw [token_leading hcs hlx, hp]
  exact congrArg Payload.text hcut

theorem payload_of_block {t : Tokenizer Cursor} (hc : t.closing = false) {value rest : List Char}
    (hvalue : ¬['*', '/'] <:+: value)
    (hcs : t.source.ahead = '/' :: '*' :: (value ++ '*' :: '/' :: rest)) :
    ∃ token t', Id.run t.next? = some (token, t') ∧ token.kind = .comment ∧
      token.payload = .text (String.ofList value) := by
  have hp := payload_blockComment t.config.options (value ++ '*' :: '/' :: rest)
  rw [Extent.blockComment_append_close rest hvalue] at hp
  exact ⟨_, _, next?_of_cons hcs hc, kind_blockComment _ _, payload_token hcs rfl hp⟩

theorem payload_of_line {t : Tokenizer Cursor} (hc : t.closing = false) {value rest : List Char}
    (hvalue : ∀ c ∈ value, isLineEnd c = false) (hrest : ∀ c ∈ rest.head?, isLineEnd c = true)
    (hcs : t.source.ahead = '/' :: '/' :: (value ++ rest)) :
    ∃ token t', Id.run t.next? = some (token, t') ∧ token.kind = .comment ∧
      token.payload = .text (String.ofList value) := by
  have hline : Extent.line (value ++ rest) = value.length := by
    have hin : ∀ c ∈ value, (!isLineEnd c) = true := fun c hmem => by rw [hvalue c hmem]; rfl
    have hout : ∀ c ∈ rest.head?, (!isLineEnd c) = false := fun c hmem => by
      rw [hrest c hmem]
      rfl
    obtain ⟨htake, -⟩ := span_append hin hout
    exact congrArg List.length htake
  refine ⟨_, _, next?_of_cons hcs hc, rfl, payload_token hcs rfl ?_⟩
  exact congrArg (fun n => Payload.text (Span.mk 2 (2 + n))) hline

/-- **How far a comment reaches.**  Wherever a token begins, a `//` begins a comment that has the
rest of the line as its value and ends before the end of the line.  A `/*` begins one whose value
ends at the first `*/` behind it.  The token ends with that `*/`, or it ends before it and the `*/`
is the next token.  Without a `*/` the value and the token go to the end of the window, and nothing
follows.  So whatever else a value holds, openers and quotes too, has no effect. -/
theorem comment_extent (t : Tokenizer Cursor) (hc : t.closing = false) :
    (['/', '/'] <+: t.source.ahead →
      ∃ j token t', EndsAt (fun i => t.source.position + 2 ≤ i ∧
          LineEndAt t.source.window.text i) t.source.window.stop j ∧
        Id.run t.next? = some (token, t') ∧ t.CutsComment token j j ∧
        t'.source.position = j ∧ t'.closing = false) ∧
    (['/', '*'] <+: t.source.ahead →
      (∀ j, IsLeast t.commentEnds j →
        (t.config.options.commentMarkers = false →
          ∃ token t', Id.run t.next? = some (token, t') ∧ t.CutsComment token j (j + 2) ∧
            t'.source.position = j + 2 ∧ t'.closing = false) ∧
        (t.config.options.commentMarkers = true →
          ∃ token t' close t'', Id.run t.next? = some (token, t') ∧ t.CutsComment token j j ∧
            t'.source.position = j ∧ Id.run t'.next? = some (close, t'') ∧
            close = { kind := .comment
                      start := t.shift j
                      stop := t.shift (j + 2)
                      text := "*/"
                      location := t'.location
                      payload := .none } ∧
            t''.source.position = j + 2 ∧ t''.closing = false)) ∧
      ((∀ i, i ∉ t.commentEnds) →
        ∃ token t', Id.run t.next? = some (token, t') ∧
          t.CutsComment token t.source.window.stop t.source.window.stop ∧
          t'.source.position = t.source.window.stop ∧ t'.closing = false ∧
          Id.run t'.next? = none)) ∧
    ∀ value rest,
      (¬['*', '/'] <:+: value → t.source.ahead = '/' :: '*' :: (value ++ '*' :: '/' :: rest) →
        ∃ token t', Id.run t.next? = some (token, t') ∧ token.kind = .comment ∧
          token.payload = .text (String.ofList value)) ∧
      ((∀ c ∈ value, isLineEnd c = false) → (∀ c ∈ rest.head?, isLineEnd c = true) →
        t.source.ahead = '/' :: '/' :: (value ++ rest) →
        ∃ token t', Id.run t.next? = some (token, t') ∧ token.kind = .comment ∧
          token.payload = .text (String.ofList value)) := by
  refine ⟨?_, ?_, fun value rest => ⟨payload_of_block hc, payload_of_line hc⟩⟩
  · rintro ⟨ds, hds⟩
    exact next?_of_line hc hds.symm
  · rintro ⟨ds, hds⟩
    refine ⟨fun j hj => ⟨fun ho => ?_, fun ho => ?_⟩, next?_of_open hc hds.symm⟩
    · exact next?_of_whole hc hds.symm ho hj
    · exact next?_of_split hc hds.symm ho hj

/-- The star of the opener begins no `*/`, and a star before one belongs to the value: the value of
`/*/**/`, with the option `commentMarkers`. -/
theorem comment_extent_of_stars :
    ∃ token t' close t'', Id.run (ofSource (Cursor.ofText ['/', '*', '/', '*', '*', '/'])
        { options := ⟨true⟩ }).next? = some (token, t') ∧ token.text = "/*/*" ∧
      token.payload = .text "/*" ∧ Id.run t'.next? = some (close, t'') ∧ close.text = "*/" ∧
      t''.source.position = 6 := by
  obtain ⟨-, hblock, -⟩ := comment_extent
    (ofSource (Cursor.ofText ['/', '*', '/', '*', '*', '/']) { options := ⟨true⟩ }) rfl
  obtain ⟨hclosed, -⟩ := hblock ⟨['/', '*', '*', '/'], rfl⟩
  have hleast : IsLeast {i | 0 + 2 ≤ i ∧ CommentEndAt ['/', '*', '/', '*', '*', '/'] i} 4 := by
    refine ⟨⟨by decide, rfl, rfl⟩, fun i ⟨hle, hstar, hslash⟩ => Nat.le_of_not_lt fun hlt => ?_⟩
    obtain rfl | rfl : i = 2 ∨ i = 3 := by omega
    · exact absurd (Option.some.inj hstar) (by decide)
    · exact absurd (Option.some.inj hslash) (by decide)
  obtain ⟨token, t', close, t'', hnext, -, -, hclose, rfl, hpos, -⟩ := (hclosed 4 hleast).2 rfl
  obtain ⟨rfl, rfl⟩ := Prod.mk.inj (Option.some.inj hnext)
  exact ⟨_, _, _, _, hnext, rfl, rfl, hclose, rfl, hpos⟩

end Tokenizer

end StyleLex
