import StyleLex.Proofs.Continuation
import StyleLex.Proofs.Slash

/-!
# Proofs/Writing — tokens that are written back

`writeBack` puts the clean texts of some tokens together.

Lexing what was written gives the same kinds and values again, unless a line comment has a `*/` in
it (`tokenize_writeBack`).  Written as a block comment it ends too early.  Everything else comes
back as it was: what is written differs from the text only in comments, so behind any other token
the two are the same up to a slash (`Whole.sameToSlash`), which is as far as they matter
(`leading_of_sameToSlash`).

With the option `commentMarkers` the `*/` of a comment is written twice
(`writeBack_commentMarkers`): the first half of the comment has its value, so it is written with a
`*/` of its own.
-/

namespace StyleLex

/-- **The text that some tokens are written as.** -/
def writeBack (tokens : List Token) : String := String.join (tokens.map Token.cleanText)

theorem writeBack_cons (token : Token) (tokens : List Token) :
    writeBack (token :: tokens) = token.cleanText ++ writeBack tokens := by
  rw [writeBack, List.map_cons, String.join_cons]
  rfl

/-! ## One token -/

namespace Token

/-- What a token says, whatever its text is. -/
def content (t : Token) : Kind × Payload String := (t.kind, t.payload)

/-- **No line comment with a `*/` in it**, which would close the block comment that is written for
it too early. -/
def Closable (t : Token) : Prop :=
  ∀ v, t.kind = .comment → t.text = "//" ++ v → ¬['*', '/'] <:+: v.toList

theorem cleanText_of_comment {t : Token} {v : String} (hk : t.kind = .comment)
    (hp : t.payload = .text v) : t.cleanText = "/*" ++ v ++ "*/" := by
  rw [cleanText, hk, hp]

theorem toList_cleanText_append {t : Token} {v : String} (hk : t.kind = .comment)
    (hp : t.payload = .text v) (more : List Char) :
    t.cleanText.toList ++ more = '/' :: '*' :: (v.toList ++ '*' :: '/' :: more) := by
  rw [cleanText_of_comment hk hp, String.toList_append, String.toList_append, List.append_assoc,
    List.append_assoc]
  rfl

theorem cleanText_of_ne {t : Token} (hk : t.kind ≠ .comment) : t.cleanText = t.text := by
  unfold cleanText
  split
  · exact absurd ‹_› hk
  · rfl

theorem closable_of_ne {t : Token} (hk : t.kind ≠ .comment) : t.Closable :=
  fun _ hk' => absurd hk' hk

/-- A comment is closable if its value holds no `*/`.  The value of a block comment never does. -/
theorem closable_iff {t : Token} (h : Shape t.kind t.text.toList t.payload) {v : String}
    (hk : t.kind = .comment) (hp : t.payload = .text v) :
    t.Closable ↔ ¬['*', '/'] <:+: v.toList := by
  have htext : ∀ w, t.text = "//" ++ w ↔ t.text.toList = '/' :: '/' :: w.toList := fun w => by
    rw [← String.toList_inj, String.toList_append]
    rfl
  unfold Closable
  simp only [htext]
  rw [hk, hp] at h
  generalize t.text.toList = text at h ⊢
  cases h with
  | @lineComment value _ =>
    rw [String.toList_ofList]
    refine ⟨fun h => ?_, fun h w _ hw => ?_⟩
    · have hvalue := h (String.ofList value) hk (by rw [String.toList_ofList])
      rwa [String.toList_ofList] at hvalue
    · rwa [← (List.cons.inj (List.cons.inj hw).2).2]
  | blockComment hv =>
    rw [String.toList_ofList]
    refine iff_of_true (fun w _ hw => ?_) hv
    exact absurd (List.cons.inj (List.cons.inj hw).2).1 (by decide)

end Token

namespace Extent

theorem blockComment_append_close_lt : ∀ v more : List Char,
    blockComment (v ++ '*' :: '/' :: more) < (v ++ '*' :: '/' :: more).length
  | [], _ => Nat.zero_lt_succ _
  | c :: v, more => by
      have hlt := blockComment_append_close_lt v more
      rw [List.cons_append, blockComment, List.length_cons]
      split <;> omega

/-- A value that holds no `*/` ends at the one behind it. -/
theorem blockComment_append_close : ∀ {v : List Char} (more : List Char), ¬['*', '/'] <:+: v →
    blockComment (v ++ '*' :: '/' :: more) = v.length
  | [], _, _ => rfl
  | c :: v, more, h => by
      have hc : ¬(c = '*' ∧ (v ++ '*' :: '/' :: more).head? = some '/') := by
        rintro ⟨rfl, hhead⟩
        cases v with
        | nil => exact absurd (Option.some.inj hhead) (by decide)
        | cons d v =>
          obtain rfl := Option.some.inj hhead
          exact h ⟨[], v, rfl⟩
      have hv : ¬['*', '/'] <:+: v := fun hin => h (List.infix_cons hin)
      rw [List.cons_append, blockComment, if_neg hc, blockComment_append_close more hv,
        List.length_cons, Nat.add_comm]

/-- **A value comes back from a block comment** exactly if it holds no `*/`. -/
theorem take_blockComment_eq_iff (v more : List Char) :
    (v ++ '*' :: '/' :: more).take (blockComment (v ++ '*' :: '/' :: more)) = v ↔
      ¬['*', '/'] <:+: v := by
  refine ⟨fun h => ?_, fun h => ?_⟩
  · have hnot := not_infix_take_blockComment (v ++ '*' :: '/' :: more)
    rwa [h] at hnot
  · rw [blockComment_append_close more h, List.take_left]

end Extent

namespace Tokenizer

open Lexeme

/-! ## What is written differs in comments only -/

theorem Whole.comment_cases {t : Tokenizer Cursor} (h : t.Whole) {lx : Lexeme}
    (hlx : t.lexeme? = some lx) (hk : lx.kind = .comment) :
    (∃ cs, t.source.ahead = '/' :: cs) ∧ ∃ v, (t.token lx).payload = .text v := by
  have hle := length_le_ahead h.closesAhead hlx
  obtain ⟨c, cs, hcs, rfl⟩ := h.lexeme?_cases hlx
  obtain ⟨rfl, ⟨ds, -, heq⟩ | ⟨ds, -, heq⟩⟩ := (rule_leading _ c cs).comment_cases hk
  · rw [token_eq hle, heq]
    exact ⟨⟨cs, hcs⟩, _, rfl⟩
  · rw [token_eq hle, heq, blockComment_of_whole h.1]
    exact ⟨⟨cs, hcs⟩, _, rfl⟩

/-- **What is written is the same as the text up to a slash.** -/
theorem Whole.sameToSlash {t : Tokenizer Cursor} (h : t.Whole) :
    SameToSlash t.source.ahead (writeBack t.tokens).toList := by
  induction t using tokens_induction with
  | done t hlx =>
    rw [tokens_of_none hlx, show t.source.ahead = [] from lexeme?_eq_none_iff.mp hlx]
    exact .refl []
  | step t lx hlx ih =>
    rw [tokens_of_some hlx, writeBack_cons, String.toList_append]
    by_cases hk : lx.kind = .comment
    · obtain ⟨⟨cs, hcs⟩, v, hp⟩ := h.comment_cases hlx hk
      rw [hcs, Token.toList_cleanText_append hk hp]
      exact .slash [] cs _
    · have htail := ih (h.after hlx)
      rw [ahead_after] at htail
      have hhead := htail.append_left (t.source.ahead.take lx.length)
      rw [List.take_append_drop] at hhead
      rwa [Token.cleanText_of_ne hk, token_eq (length_le_ahead h.closesAhead hlx),
        String.toList_ofList]

/-! ## Lexing what was written -/

/-- **Two runs side by side**: what lies ahead of `u` is what the tokens ahead of `t` are written
as. -/
structure Rewrites (t u : Tokenizer Cursor) : Prop where
  original : t.Whole
  written : u.Whole
  ahead_eq : u.source.ahead = (writeBack t.tokens).toList

namespace Rewrites

variable {t u : Tokenizer Cursor} {lx : Lexeme}

theorem ahead_eq_append (h : Rewrites t u) (hlx : t.lexeme? = some lx) :
    u.source.ahead = (t.token lx).cleanText.toList ++ (writeBack (t.after lx).tokens).toList := by
  rw [h.ahead_eq, tokens_of_some hlx, writeBack_cons, String.toList_append]

/-- A token that is lexed from what it is written as keeps the runs side by side. -/
theorem after (h : Rewrites t u) (hlx : t.lexeme? = some lx) {lx' : Lexeme}
    (hlx' : u.lexeme? = some lx') (htext : (u.token lx').text = (t.token lx).cleanText) :
    Rewrites (t.after lx) (u.after lx') := by
  refine ⟨h.original.after hlx, h.written.after hlx', ?_⟩
  have hlen := length_text_token (length_le_ahead h.written.closesAhead hlx')
  rw [ahead_after, h.ahead_eq_append hlx, ← hlen, htext, List.drop_left]

theorem lexeme?_of_ne (h : Rewrites t u) (hlx : t.lexeme? = some lx) (hk : lx.kind ≠ .comment) :
    u.lexeme? = some lx := by
  have hle := length_le_ahead h.original.closesAhead hlx
  have hsame := (h.original.after hlx).sameToSlash
  have hahead := h.ahead_eq_append hlx
  rw [Token.cleanText_of_ne hk, token_eq hle, String.toList_ofList] at hahead
  rw [ahead_after] at hsame
  obtain ⟨c, cs, hcs, rfl⟩ := h.original.lexeme?_cases hlx
  rw [h.original.options_eq, hcs] at hsame hahead
  obtain ⟨ds, hds, hlead⟩ := leading_of_sameToSlash hsame
  rw [lexeme?_of_cons (hahead.trans hds) h.written.2, h.written.options_eq, hlead,
    h.original.options_eq]

/-- **A token that is no comment** is there again. -/
theorem step_of_ne (h : Rewrites t u) (hlx : t.lexeme? = some lx) (hk : lx.kind ≠ .comment) :
    (u.token lx).content = (t.token lx).content ∧ (u.token lx).text = (t.token lx).cleanText := by
  have hle := length_le_ahead h.original.closesAhead hlx
  have hle' := length_le_ahead h.written.closesAhead (h.lexeme?_of_ne hlx hk)
  have htake : u.source.ahead.take lx.length = t.source.ahead.take lx.length := by
    rw [h.ahead_eq_append hlx, Token.cleanText_of_ne hk, token_eq hle, String.toList_ofList,
      List.take_append_of_le_length (Nat.le_of_eq (List.length_take_of_le hle).symm),
      List.take_take, Nat.min_self]
  refine ⟨?_, ?_⟩
  · rw [token_eq hle, token_eq hle', Token.content, Token.content]
    refine congrArg (lx.kind, ·) (Payload.map_congr fun s hs => ?_)
    have hs := piece_le_of_lexeme? hlx hs
    rw [← Span.cut_take hs, htake, Span.cut_take hs]
  · rw [Token.cleanText_of_ne hk, token_eq hle, token_eq hle', htake]

/-- **A comment** is there again exactly if it is closable. -/
theorem step_of_comment (h : Rewrites t u) (hlx : t.lexeme? = some lx) (hk : lx.kind = .comment) :
    ∃ lx', u.lexeme? = some lx' ∧
      ((u.token lx').content = (t.token lx).content ↔ (t.token lx).Closable) ∧
      ((t.token lx).Closable → (u.token lx').text = (t.token lx).cleanText) := by
  obtain ⟨-, v, hp⟩ := h.original.comment_cases hlx hk
  have hahead := h.ahead_eq_append hlx
  rw [Token.toList_cleanText_append hk hp] at hahead
  have hclosed := h.written.closedInside?_of_closed hahead
    (Extent.blockComment_append_close_lt v.toList (writeBack (t.after lx).tokens).toList)
  obtain ⟨hk', hp', htext⟩ := Token.closedInside?_eq_some_iff.mp hclosed
  have hcontent : (t.token lx).content = (.comment, .text v) := Prod.ext hk hp
  refine ⟨_, lexeme?_of_cons hahead h.written.2, ?_⟩
  rw [leading_blockComment, Token.content, hk', hp', htext, hcontent,
    Token.cleanText_of_comment hk hp,
    Token.closable_iff (shape_token h.original.closesAhead hlx) hk hp,
    ← Extent.take_blockComment_eq_iff v.toList (writeBack (t.after lx).tokens).toList,
    Prod.mk.injEq, Payload.text.injEq, ← String.toList_inj, String.toList_ofList]
  refine ⟨and_iff_right rfl, fun hv => ?_⟩
  rw [hv, String.ofList_toList]

/-- **One token** is there again exactly if it is closable, and then the runs stay side by side. -/
theorem step (h : Rewrites t u) (hlx : t.lexeme? = some lx) :
    ∃ lx', u.lexeme? = some lx' ∧
      ((u.token lx').content = (t.token lx).content ↔ (t.token lx).Closable) ∧
      ((t.token lx).Closable →
        (u.token lx').text = (t.token lx).cleanText ∧ Rewrites (t.after lx) (u.after lx')) := by
  by_cases hk : lx.kind = .comment
  · obtain ⟨lx', hlx', hiff, htext⟩ := h.step_of_comment hlx hk
    exact ⟨lx', hlx', hiff, fun hc => ⟨htext hc, h.after hlx hlx' (htext hc)⟩⟩
  · have hlx' := h.lexeme?_of_ne hlx hk
    obtain ⟨hcontent, htext⟩ := h.step_of_ne hlx hk
    exact ⟨lx, hlx', iff_of_true hcontent (Token.closable_of_ne hk),
      fun _ => ⟨htext, h.after hlx hlx' htext⟩⟩

theorem tokens_eq_nil (h : Rewrites t u) (hlx : t.lexeme? = none) : u.tokens = [] := by
  rw [tokens_eq_nil_iff, h.ahead_eq, tokens_of_none hlx]
  rfl

/-- **All the tokens are there again** exactly if they are closable. -/
theorem content_eq_iff (h : Rewrites t u) :
    u.tokens.map Token.content = t.tokens.map Token.content ↔
      ∀ token ∈ t.tokens, token.Closable := by
  induction t using tokens_induction generalizing u with
  | done t hlx =>
    rw [h.tokens_eq_nil hlx, tokens_of_none hlx]
    exact iff_of_true rfl (fun _ hmem => nomatch hmem)
  | step t lx hlx ih =>
    obtain ⟨lx', hlx', hiff, hnext⟩ := h.step hlx
    rw [tokens_of_some hlx, tokens_of_some hlx', List.map_cons, List.map_cons, List.cons.injEq,
      List.forall_mem_cons, hiff]
    exact and_congr_right fun hc => ih (hnext hc).2

/-- **Their texts** are what was written. -/
theorem texts_eq (h : Rewrites t u) (hc : ∀ token ∈ t.tokens, token.Closable) :
    u.tokens.map Token.text = t.tokens.map Token.cleanText := by
  induction t using tokens_induction generalizing u with
  | done t hlx =>
    rw [h.tokens_eq_nil hlx, tokens_of_none hlx]
    rfl
  | step t lx hlx ih =>
    obtain ⟨lx', hlx', -, hnext⟩ := h.step hlx
    rw [tokens_of_some hlx, List.forall_mem_cons] at hc
    obtain ⟨htext, hafter⟩ := hnext hc.1
    rw [tokens_of_some hlx, tokens_of_some hlx', List.map_cons, List.map_cons, htext,
      ih hafter hc.2]

end Rewrites

theorem rewrites_ofText (text : List Char) :
    Rewrites (ofText text) (ofText (writeBack (ofText text).tokens).toList) :=
  ⟨whole_ofText text, whole_ofText _, rfl⟩

end Tokenizer

/-- **Writing back is faithful up to a `*/` in a line comment.**  Lexing what the tokens of a text
are written as gives their kinds and values again exactly if no line comment has a `*/` in it.  Then
every token has the text that it was written as, so a comment that was no closed block comment has
become one. -/
theorem tokenize_writeBack (text : String) :
    ((tokenize (writeBack (tokenize text))).map Token.content =
        (tokenize text).map Token.content ↔
      ∀ token ∈ tokenize text, token.Closable) ∧
    ((∀ token ∈ tokenize text, token.Closable) →
      (tokenize (writeBack (tokenize text))).map Token.text =
        (tokenize text).map Token.cleanText) :=
  have h := Tokenizer.rewrites_ofText text.toList
  ⟨h.content_eq_iff, h.texts_eq⟩

/-- A line comment with a `*/` in it: what follows it there is lexed. -/
theorem not_forall_tokenize_writeBack_eq :
    ¬∀ text : String, (tokenize (writeBack (tokenize text))).map Token.content =
      (tokenize text).map Token.content := by
  intro h
  have hline := h "//a*/b"
  revert hline
  decide

/-! ## Comments in two tokens -/

namespace Token

/-- What the halves of a token are written as: a closed comment with a second `*/`. -/
def halvesText (t : Token) : String :=
  t.cleanText ++ if t.closedInside?.isSome then "*/" else ""

theorem writeBack_halves (t : Token) : writeBack t.halves = t.halvesText := by
  cases hin : t.closedInside? with
  | none =>
    rw [halves_of_not_closed hin, halvesText, hin, writeBack_cons]
    rfl
  | some v =>
    obtain ⟨hk, hp, -⟩ := closedInside?_eq_some_iff.mp hin
    have hopener : (t.opener v).cleanText = "/*" ++ v ++ "*/" := cleanText_of_comment hk hp
    rw [halves_of_closed hin, halvesText, hin, writeBack_cons, writeBack_cons, hopener,
      cleanText_of_comment hk hp]
    rfl

end Token

theorem writeBack_append (tokens more : List Token) :
    writeBack (tokens ++ more) = writeBack tokens ++ writeBack more := by
  rw [writeBack, List.map_append, String.join_append]
  rfl

/-- **All the halves** of some tokens, written back. -/
theorem writeBack_flatMap_halves (tokens : List Token) :
    writeBack (tokens.flatMap Token.halves) = String.join (tokens.map Token.halvesText) := by
  induction tokens with
  | nil => rfl
  | cons token tokens ih =>
    rw [List.flatMap_cons, writeBack_append, token.writeBack_halves, ih, List.map_cons,
      String.join_cons]

/-- Each closed comment adds two characters. -/
theorem length_writeBack_flatMap_halves (tokens : List Token) :
    (writeBack (tokens.flatMap Token.halves)).length =
      (writeBack tokens).length + 2 * tokens.countP fun token => token.closedInside?.isSome := by
  induction tokens with
  | nil => rfl
  | cons token tokens ih =>
    rw [List.flatMap_cons, writeBack_append, token.writeBack_halves, writeBack_cons,
      String.length_append, String.length_append, Token.halvesText, String.length_append, ih,
      List.countP_cons]
    split
    · change _ + 2 + _ = _
      omega
    · change _ + 0 + _ = _
      omega

theorem flatMap_halves_of_not_closed {tokens : List Token}
    (h : ∀ token ∈ tokens, token.closedInside? = none) : tokens.flatMap Token.halves = tokens := by
  induction tokens with
  | nil => rfl
  | cons token tokens ih =>
    obtain ⟨hin, htail⟩ := List.forall_mem_cons.mp h
    rw [List.flatMap_cons, Token.halves_of_not_closed hin, ih htail, List.singleton_append]

/-- **The halves are written as their tokens are** only if there is no closed comment. -/
theorem writeBack_flatMap_halves_eq_iff {tokens : List Token} :
    writeBack (tokens.flatMap Token.halves) = writeBack tokens ↔
      ∀ token ∈ tokens, token.closedInside? = none := by
  refine ⟨fun h token hmem => ?_, fun h => ?_⟩
  · have hlen := length_writeBack_flatMap_halves tokens
    rw [h] at hlen
    have hcount : tokens.countP (fun token => token.closedInside?.isSome) = 0 := by omega
    simpa using List.countP_eq_zero.mp hcount token hmem
  · rw [flatMap_halves_of_not_closed h]

namespace Tokenizer

/-- A window is lexed in both ways, or refused in both. -/
theorem splits_or_refused (text : List Char) (config : Config) :
    (∃ t u, ofConfig? text { config with options := { commentMarkers := false } } = .ok t ∧
      ofConfig? text { config with options := { commentMarkers := true } } = .ok u ∧ Splits t u) ∨
    ∃ e, ofConfig? text { config with options := { commentMarkers := false } } = .error e ∧
      ofConfig? text { config with options := { commentMarkers := true } } = .error e := by
  by_cases hle : config.start ≤ config.stopIn text ∧ config.stopIn text ≤ text.length
  · have ht :=
      @ofConfig?_of_le text { config with options := { commentMarkers := false } } hle.1 hle.2
    have hu :=
      @ofConfig?_of_le text { config with options := { commentMarkers := true } } hle.1 hle.2
    exact Or.inl ⟨_, _, ht, hu,
      splits_ofSource (Cursor.atStart (config.window hle.1 hle.2)) config⟩
  · have ht := @ofConfig?_of_not_le text { config with options := { commentMarkers := false } } hle
    have hu := @ofConfig?_of_not_le text { config with options := { commentMarkers := true } } hle
    exact Or.inr ⟨_, ht, hu⟩

/-- **Writing back depends on the way comments are given.**  With comments in two tokens, what is
written has a second `*/` behind every closed block comment.  So it is what is written without the
option exactly if the window holds no such comment. -/
theorem writeBack_commentMarkers (text : List Char) (config : Config) :
    ((ofConfig? text { config with options := { commentMarkers := true } }).map fun u =>
        writeBack u.tokens) =
      ((ofConfig? text { config with options := { commentMarkers := false } }).map fun t =>
        String.join (t.tokens.map Token.halvesText)) ∧
    (((ofConfig? text { config with options := { commentMarkers := true } }).map fun u =>
          writeBack u.tokens) =
        ((ofConfig? text { config with options := { commentMarkers := false } }).map fun t =>
          writeBack t.tokens) ↔
      ∀ t, ofConfig? text { config with options := { commentMarkers := false } } = .ok t →
        ∀ token ∈ t.tokens, token.closedInside? = none) := by
  obtain ⟨t, u, ht, hu, hsplits⟩ | ⟨e, ht, hu⟩ := splits_or_refused text config
  · rw [ht, hu, Except.map, Except.map, Except.map, hsplits.tokens_eq, Except.ok.injEq,
      Except.ok.injEq]
    refine ⟨writeBack_flatMap_halves _, ?_⟩
    rw [writeBack_flatMap_halves_eq_iff]
    refine ⟨?_, fun h => h t rfl⟩
    rintro hnone _ ⟨rfl⟩
    exact hnone
  · rw [ht, hu]
    exact ⟨rfl, iff_of_true rfl fun t hok => nomatch hok⟩

/-- The smallest comment with an inside, in two tokens. -/
theorem not_forall_writeBack_commentMarkers_eq :
    ¬∀ (text : List Char) (config : Config),
      ((ofConfig? text { config with options := { commentMarkers := true } }).map fun u =>
          writeBack u.tokens) =
        ((ofConfig? text { config with options := { commentMarkers := false } }).map fun t =>
          writeBack t.tokens) := by
  intro h
  have hcomment := Except.ok.inj (h ['/', '*', 'a', '*', '/'] {})
  revert hcomment
  decide

end Tokenizer

end StyleLex
