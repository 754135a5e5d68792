import StyleLex.Proofs.Place

/-!
# Proofs/CommentMarkers — a block comment in one token or in two

With the option `commentMarkers` a closed block comment is given as two tokens.  They are the
`halves` of the token that it is without the option, and all other tokens are the same
(`tokens_commentMarkers`).

This is a simulation in which the second run takes one step or two for each step of the first
(`Splits.step`).  `Splits` relates the states between comments.  A token that is no closed comment
keeps the runs together (`Splits.token_eq`, `Splits.after`).  A closed comment takes the second run
through a state in which `closing` is set, and out of it again (`Splits.token_opener`,
`Splits.token_closer`, `Splits.after_closed`).
-/

namespace StyleLex

/-- An element of lists put together comes from one of them. -/
theorem exists_of_flatMap_eq {α β : Type} {f : α → List β} {as : List α} {b : β}
    {pre post : List β} (h : as.flatMap f = pre ++ b :: post) :
    ∃ a ∈ as, ∃ before left right, f a = left ++ b :: right ∧ pre = before ++ left := by
  induction as generalizing pre with
  | nil => exact absurd (List.append_eq_nil_iff.mp h.symm).2 (List.cons_ne_nil _ _)
  | cons a as ih =>
    rw [List.flatMap_cons] at h
    obtain ⟨rest, rfl, hrest⟩ | ⟨rest, ha, hrest⟩ := List.append_eq_append_iff.mp h
    · obtain ⟨a', hmem, before, left, right, ha', rfl⟩ := ih hrest
      exact ⟨a', List.mem_cons_of_mem a hmem, f a ++ before, left, right, ha',
        (List.append_assoc ..).symm⟩
    · cases rest with
      | nil =>
        obtain ⟨a', hmem, before, left, right, ha', hnil⟩ := @ih [] hrest.symm
        obtain ⟨rfl, rfl⟩ := List.append_eq_nil_iff.mp hnil.symm
        exact ⟨a', List.mem_cons_of_mem a hmem, pre, [], right, ha', (List.append_nil pre).symm⟩
      | cons c rest =>
        obtain ⟨rfl, -⟩ := List.cons.inj hrest
        exact ⟨a, List.mem_cons_self .., [], pre, rest, ha, rfl⟩

/-! ## The halves of a token -/

namespace Token

/-- The inside of a block comment that is closed. -/
def closedInside? (t : Token) : Option String :=
  match t.kind, t.payload with
  | .comment, .text v => if t.text = "/*" ++ v ++ "*/" then some v else none
  | _, _ => none

/-- A comment with the inside `v`, without its `*/`. -/
def opener (t : Token) (v : String) : Token :=
  { t with
    stop := shiftPosition (2 + v.length) t.start
    text := "/*" ++ v }

/-- The `*/` of a comment with the inside `v`. -/
def closer (t : Token) (v : String) : Token where
  kind := .comment
  start := shiftPosition (2 + v.length) t.start
  stop := t.stop
  text := "*/"
  location := t.location.past (2 + v.length) t.text.toList
  payload := .none

/-- **The two halves of a closed block comment.**  Any other token is not split. -/
def halves (t : Token) : List Token :=
  match t.closedInside? with
  | none => [t]
  | some v => [t.opener v, t.closer v]

theorem closedInside?_eq_some_iff {t : Token} {v : String} :
    t.closedInside? = some v ↔
      t.kind = .comment ∧ t.payload = .text v ∧ t.text = "/*" ++ v ++ "*/" := by
  unfold closedInside?
  split
  · next w hk hp =>
    rw [hk, hp, Payload.text.injEq, Option.ite_none_right_eq_some, Option.some.injEq]
    constructor
    · rintro ⟨htext, rfl⟩
      exact ⟨rfl, rfl, htext⟩
    · rintro ⟨-, rfl, htext⟩
      exact ⟨htext, rfl⟩
  · next hne =>
    refine ⟨fun h => (nomatch h), ?_⟩
    rintro ⟨hk, hp, -⟩
    exact absurd hp (hne v hk)

theorem halves_of_closed {t : Token} {v : String} (h : t.closedInside? = some v) :
    t.halves = [t.opener v, t.closer v] := by
  rw [halves, h]

theorem halves_of_not_closed {t : Token} (h : t.closedInside? = none) : t.halves = [t] := by
  rw [halves, h]

/-- **Nothing stands between the halves of a comment.**  A comment without a value is a second half,
and its first half is the token before it. -/
theorem eq_append_opener {tokens pre post : List Token} {close : Token}
    (hvalue : ∀ token ∈ tokens, token.kind = .comment → token.payload ≠ .none)
    (h : tokens.flatMap halves = pre ++ close :: post) (hk : close.kind = .comment)
    (hp : close.payload = .none) :
    ∃ token ∈ tokens, ∃ v before, token.closedInside? = some v ∧ close = token.closer v ∧
      pre = before ++ [token.opener v] := by
  obtain ⟨token, hmem, before, left, right, hhalves, rfl⟩ := exists_of_flatMap_eq h
  cases hin : token.closedInside? with
  | none =>
    rw [halves_of_not_closed hin, List.singleton_eq_append_iff] at hhalves
    obtain ⟨-, heq⟩ | ⟨-, heq⟩ := hhalves
    · obtain rfl := (List.cons.inj heq).1
      exact absurd hp (hvalue close hmem hk)
    · cases heq
  | some v =>
    obtain ⟨-, hpayload, -⟩ := closedInside?_eq_some_iff.mp hin
    rw [halves_of_closed hin] at hhalves
    cases left with
    | nil =>
      obtain rfl := (List.cons.inj hhalves).1
      cases hpayload.symm.trans hp
    | cons first left =>
      obtain ⟨rfl, htail⟩ := List.cons.inj hhalves
      obtain ⟨rfl, hclose⟩ | ⟨-, heq⟩ := List.singleton_eq_append_iff.mp htail
      · exact ⟨token, hmem, v, before, hin, (List.cons.inj hclose).1, rfl⟩
      · cases heq

end Token

/-! ## What the option decides about -/

namespace Lexeme

theorem comment?_congr (o o' : Options) {cs : List Char} (h : cs.head? ≠ some '*') :
    comment? o cs = comment? o' cs := by
  unfold comment?
  split
  · rfl
  · exact absurd rfl h
  · rfl

/-- **The option decides about block comments only.** -/
theorem leading_congr (o o' : Options) {c : Char} {cs : List Char}
    (h : c = '/' → cs.head? ≠ some '*') : leading o c cs = leading o' c cs := by
  have hmarked : marked? o c cs = marked? o' c cs := by
    unfold marked?
    split
    · exact comment?_congr o o' (h rfl)
    all_goals rfl
  rw [leading, leading, attempt?, attempt?, hmarked]

theorem leading_blockComment (o : Options) (ds : List Char) :
    leading o '/' ('*' :: ds) = blockComment o ds := rfl

/-- A closed comment that is split: its first half. -/
theorem blockComment_of_closed {o : Options} (ho : o.commentMarkers = true) {ds : List Char}
    (h : Extent.blockComment ds < ds.length) :
    blockComment o ds =
      { kind := .comment
        length := 2 + Extent.blockComment ds
        payload := .text ⟨2, 2 + Extent.blockComment ds⟩
        opensComment := true } := by
  rw [blockComment_of_markers ho, decide_eq_true h]

/-- A comment that is not closed has the same characters and the same value in both ways. -/
theorem blockComment_of_not_closed (o : Options) {ds : List Char}
    (h : ¬Extent.blockComment ds < ds.length) :
    (blockComment o ds).kind = .comment ∧
      (blockComment o ds).length = 2 + Extent.blockComment ds ∧
      (blockComment o ds).payload = .text ⟨2, 2 + Extent.blockComment ds⟩ ∧
      (blockComment o ds).opensComment = false := by
  cases ho : o.commentMarkers with
  | true =>
    rw [blockComment_of_markers ho]
    exact ⟨rfl, rfl, rfl, decide_eq_false h⟩
  | false =>
    rw [blockComment_of_whole ho, if_neg h]
    exact ⟨rfl, rfl, rfl, rfl⟩

end Lexeme

/-! ## One token or two -/

namespace Tokenizer

open Lexeme

/-- The inside of a block comment is cut out behind its `/*`. -/
theorem cut_inside (c d : Char) (ds : List Char) (n : Nat) :
    Span.cut (c :: d :: ds) ⟨2, 2 + n⟩ = String.ofList (ds.take n) := Span.cut_behind [c, d] ds n

/-- The text of a block comment, up to somewhere inside it. -/
theorem ofList_take_opener (ds : List Char) (n : Nat) :
    String.ofList (('/' :: '*' :: ds).take (2 + n)) = "/*" ++ String.ofList (ds.take n) := by
  rw [Nat.add_comm]
  exact @String.ofList_append ['/', '*'] (ds.take n)

theorem length_ofList_take {ds : List Char} {n : Nat} (h : n ≤ ds.length) :
    (String.ofList (ds.take n)).length = n := by
  rw [String.length_ofList, List.length_take, Nat.min_eq_left h]

/-- A closed block comment is what its token says it is. -/
theorem Whole.closedInside?_of_closed {t : Tokenizer Cursor} (h : t.Whole) {ds : List Char}
    (hcs : t.source.ahead = '/' :: '*' :: ds) (hlt : Extent.blockComment ds < ds.length) :
    (t.token (blockComment t.config.options ds)).closedInside? =
      some (String.ofList (ds.take (Extent.blockComment ds))) := by
  have hlx : t.lexeme? = some (blockComment t.config.options ds) := lexeme?_of_cons hcs h.2
  rw [Token.closedInside?_eq_some_iff, token_eq (length_le_ahead h.closesAhead hlx), hcs,
    blockComment_of_whole h.1, if_pos hlt]
  refine ⟨rfl, congrArg Payload.text (cut_inside _ _ ds _), ?_⟩
  rw [Nat.add_assoc, ofList_take_opener, take_blockComment_add_two hlt, String.ofList_append,
    String.append_assoc]

/-- Only a closed block comment says that it is one. -/
theorem Whole.closed_of_closedInside? {t : Tokenizer Cursor} (h : t.Whole) {lx : Lexeme}
    (hlx : t.lexeme? = some lx) {v : String} (hv : (t.token lx).closedInside? = some v) :
    ∃ ds, t.source.ahead = '/' :: '*' :: ds ∧ Extent.blockComment ds < ds.length := by
  obtain ⟨hk, hp, htext⟩ := Token.closedInside?_eq_some_iff.mp hv
  have hle := length_le_ahead h.closesAhead hlx
  rw [token_eq hle] at hk hp htext
  obtain ⟨c, cs, hcs, rfl⟩ := h.lexeme?_cases hlx
  have htoList := congrArg String.toList htext
  rw [hcs, String.toList_ofList, String.toList_append, String.toList_append] at htoList
  obtain ⟨rfl, ⟨ds, rfl, heq⟩ | ⟨ds, rfl, heq⟩⟩ := (rule_leading _ c cs).comment_cases hk
  · rw [heq, lineComment, Nat.add_comm, List.take_succ_cons, List.take_succ_cons] at htoList
    obtain ⟨hne, -⟩ := List.cons.inj (List.cons.inj htoList).2
    exact absurd hne (by decide)
  · refine ⟨ds, hcs, Decidable.byContradiction fun hnot => ?_⟩
    obtain ⟨-, hlen, hpayload, -⟩ := blockComment_of_not_closed t.config.options hnot
    rw [hcs, heq, hpayload, Payload.map, cut_inside] at hp
    obtain rfl := Payload.text.inj hp
    rw [heq, hlen, Nat.add_comm, List.take_succ_cons, List.take_succ_cons, String.toList_ofList]
      at htoList
    exact absurd (congrArg List.length htoList) (by simp)

/-- **Two runs between two comments**: `t` keeps comments whole, `u` splits them, and otherwise they
stand at the same place. -/
structure Splits (t u : Tokenizer Cursor) : Prop where
  whole : t.Whole
  markers : u.config.options.commentMarkers = true
  between : u.closing = false
  offset_eq : u.config.positionOffset = t.config.positionOffset
  ahead_eq : u.source.ahead = t.source.ahead
  position_eq : u.source.position = t.source.position
  tracker_eq : u.tracker = t.tracker
  counts : t.tracker.relative.Counts

namespace Splits

variable {t u : Tokenizer Cursor} {lx : Lexeme}

theorem shift_eq (h : Splits t u) : u.shift = t.shift :=
  funext fun p => congrArg (shiftPosition · p) h.offset_eq

/-- **A token that is measured alike** is the same token. -/
theorem token_eq (h : Splits t u) {lx' : Lexeme} (hle : lx.length ≤ t.source.ahead.length)
    (hk : lx'.kind = lx.kind) (hlen : lx'.length = lx.length) (hp : lx'.payload = lx.payload) :
    u.token lx' = t.token lx := by
  have hle' : lx'.length ≤ u.source.ahead.length := by rwa [hlen, h.ahead_eq]
  rw [Tokenizer.token_eq hle', Tokenizer.token_eq hle, hk, hlen, hp, h.ahead_eq, h.position_eq,
    h.shift_eq, location, location, h.tracker_eq]

/-- **A token of the same length keeps the runs together**, unless it announces a `*/`. -/
theorem after (h : Splits t u) {lx' : Lexeme} (hlx : t.lexeme? = some lx)
    (hlen : lx'.length = lx.length) (ho : lx'.opensComment = false) :
    Splits (t.after lx) (u.after lx') := by
  have hle := length_le_ahead h.whole.closesAhead hlx
  have hle' : lx'.length ≤ u.source.ahead.length := by rwa [hlen, h.ahead_eq]
  refine ⟨h.whole.after hlx, h.markers, ho, h.offset_eq, ?_, ?_, ?_, counts_after h.counts lx⟩
  · rw [ahead_after, ahead_after, hlen, h.ahead_eq]
  · rw [position_after hle', position_after hle, hlen, h.position_eq]
  · rw [Tokenizer.after, Tokenizer.after, hlen, h.tracker_eq, h.ahead_eq]

section Closed

variable {ds : List Char} (h : Splits t u) (hcs : t.source.ahead = '/' :: '*' :: ds)
  (hlt : Extent.blockComment ds < ds.length)

include h hcs hlt

theorem length_closed : 2 + Extent.blockComment ds + 2 ≤ t.source.ahead.length := by
  have hlx : t.lexeme? = some (blockComment t.config.options ds) := lexeme?_of_cons hcs h.whole.2
  have hle := length_le_ahead h.whole.closesAhead hlx
  rwa [blockComment_of_whole h.whole.1, if_pos hlt] at hle

theorem length_opener : 2 + Extent.blockComment ds ≤ u.source.ahead.length := by
  rw [h.ahead_eq]
  exact Nat.le_trans (Nat.le_add_right ..) (h.length_closed hcs hlt)

/-- What is ahead between the halves. -/
theorem ahead_after_opener :
    ∃ es, (u.after (blockComment u.config.options ds)).source.ahead = '*' :: '/' :: es := by
  obtain ⟨es, hes⟩ := drop_blockComment hlt
  refine ⟨es, ?_⟩
  rw [ahead_after, h.ahead_eq, hcs, blockComment_of_closed h.markers hlt, Nat.add_comm,
    List.drop_succ_cons, List.drop_succ_cons, hes]

theorem length_closer :
    commentClose.length ≤ (u.after (blockComment u.config.options ds)).source.ahead.length := by
  obtain ⟨es, hes⟩ := h.ahead_after_opener hcs hlt
  rw [hes]
  exact Nat.le_add_left ..

/-- **The first half.** -/
theorem token_opener :
    u.token (blockComment u.config.options ds) =
      (t.token (blockComment t.config.options ds)).opener
        (String.ofList (ds.take (Extent.blockComment ds))) := by
  rw [blockComment_of_closed h.markers hlt, blockComment_of_whole h.whole.1, if_pos hlt,
    Tokenizer.token_eq (h.length_opener hcs hlt), Tokenizer.token_eq (h.length_closed hcs hlt),
    Token.opener, length_ofList_take (Nat.le_of_lt hlt), h.ahead_eq, h.position_eq, hcs]
  simp only
  rw [ofList_take_opener, h.shift_eq, shift, shift, shiftPosition_add, location, location,
    h.tracker_eq]

/-- **The second half.** -/
theorem token_closer :
    (u.after (blockComment u.config.options ds)).token commentClose =
      (t.token (blockComment t.config.options ds)).closer
        (String.ofList (ds.take (Extent.blockComment ds))) := by
  obtain ⟨es, hes⟩ := h.ahead_after_opener hcs hlt
  have hlocation : u.location.past (2 + Extent.blockComment ds) t.source.ahead =
      t.location.past (2 + Extent.blockComment ds)
        (t.source.ahead.take (2 + Extent.blockComment ds + 2)) := by
    rw [Location.past_take _ (Nat.lt_add_of_pos_right Nat.two_pos), location, h.tracker_eq]
    rfl
  rw [Tokenizer.token_eq (h.length_closer hcs hlt), hes,
    location_after (h.tracker_eq ▸ h.counts), h.ahead_eq,
    position_after (blockComment_of_closed h.markers hlt ▸ h.length_opener hcs hlt),
    blockComment_of_closed h.markers hlt, blockComment_of_whole h.whole.1, if_pos hlt,
    Tokenizer.token_eq (h.length_closed hcs hlt), Token.closer,
    length_ofList_take (Nat.le_of_lt hlt), String.toList_ofList]
  simp only
  rw [hlocation, h.position_eq, shift_after, h.shift_eq, shift, shiftPosition_add _ _ (2 + _)]
  rfl

/-- **A closed comment brings the runs together again** after its two halves. -/
theorem after_closed :
    Splits (t.after (blockComment t.config.options ds))
      ((u.after (blockComment u.config.options ds)).after commentClose) := by
  have hlx : t.lexeme? = some (blockComment t.config.options ds) := lexeme?_of_cons hcs h.whole.2
  have hopener : (blockComment u.config.options ds).length = 2 + Extent.blockComment ds := by
    rw [blockComment_of_closed h.markers hlt]
  have hwhole : (blockComment t.config.options ds).length =
      (blockComment u.config.options ds).length + commentClose.length := by
    rw [hopener, blockComment_of_whole h.whole.1, if_pos hlt]
    rfl
  have hle' := hopener ▸ h.length_opener hcs hlt
  refine ⟨h.whole.after hlx, h.markers, rfl, h.offset_eq, ?_, ?_, ?_, counts_after h.counts _⟩
  · rw [ahead_after, ahead_after, ahead_after, List.drop_drop, hwhole, h.ahead_eq]
  · rw [position_after (h.length_closer hcs hlt), position_after hle',
      position_after (length_le_ahead h.whole.closesAhead hlx), hwhole, h.position_eq,
      Nat.add_assoc]
  · change (u.tracker.advance _ _).advance _ (u.after _).source.ahead = t.tracker.advance _ _
    rw [ahead_after, hwhole, Tracker.advance_add, h.ahead_eq, h.tracker_eq]

end Closed

/-- **One token that is no closed comment** is one token of both runs. -/
theorem step_of_not_closed (h : Splits t u) (hlx : t.lexeme? = some lx)
    (hin : (t.token lx).closedInside? = none) :
    ∃ u', Run u [t.token lx] u' ∧ Splits (t.after lx) u' := by
  have hle := length_le_ahead h.whole.closesAhead hlx
  obtain ⟨c, cs, hcs, rfl⟩ := h.whole.lexeme?_cases hlx
  have hlx' := lexeme?_of_cons (h.ahead_eq.trans hcs) h.between
  by_cases hc : c = '/' ∧ cs.head? = some '*'
  · obtain ⟨rfl, hhead⟩ := hc
    obtain ⟨ds, rfl⟩ := List.head?_eq_some_iff.mp hhead
    have hnot : ¬Extent.blockComment ds < ds.length := fun hlt => by
      cases hin.symm.trans (h.whole.closedInside?_of_closed hcs hlt)
    obtain ⟨hk, hlen, hp, -⟩ := blockComment_of_not_closed t.config.options hnot
    obtain ⟨hk', hlen', hp', ho⟩ := blockComment_of_not_closed u.config.options hnot
    have hrun := Run.of_lexeme? hlx' (.done _)
    rw [leading_blockComment, h.token_eq hle (hk'.trans hk.symm) (hlen'.trans hlen.symm)
      (hp'.trans hp.symm)] at hrun
    exact ⟨_, hrun, h.after hlx (hlen'.trans hlen.symm) ho⟩
  · rw [leading_congr _ t.config.options fun h1 h2 => hc ⟨h1, h2⟩] at hlx'
    have hrun := Run.of_lexeme? hlx' (.done _)
    rw [h.token_eq hle rfl rfl rfl] at hrun
    exact ⟨_, hrun, h.after hlx rfl (h.whole.after hlx).2⟩

/-- **A closed comment** is one token of the first run and its halves in the second. -/
theorem step_of_closed (h : Splits t u) (hlx : t.lexeme? = some lx) {v : String}
    (hin : (t.token lx).closedInside? = some v) :
    ∃ u', Run u [(t.token lx).opener v, (t.token lx).closer v] u' ∧ Splits (t.after lx) u' := by
  obtain ⟨ds, hcs, hlt⟩ := h.whole.closed_of_closedInside? hlx hin
  obtain rfl : blockComment t.config.options ds = lx :=
    Option.some.inj ((lexeme?_of_cons hcs h.whole.2).symm.trans hlx)
  obtain rfl := Option.some.inj ((h.whole.closedInside?_of_closed hcs hlt).symm.trans hin)
  have hopener : u.lexeme? = some (blockComment u.config.options ds) :=
    lexeme?_of_cons (h.ahead_eq.trans hcs) h.between
  have hclosing : (u.after (blockComment u.config.options ds)).closing = true := by
    rw [blockComment_of_closed h.markers hlt]
    rfl
  obtain ⟨es, hes⟩ := h.ahead_after_opener hcs hlt
  have hrun := Run.of_lexeme? hopener (.of_lexeme? (lexeme?_of_closing hes hclosing) (.done _))
  rw [h.token_opener hcs hlt, h.token_closer hcs hlt] at hrun
  exact ⟨_, hrun, h.after_closed hcs hlt⟩

/-- **One token of the first run** is its halves in the second. -/
theorem step (h : Splits t u) (hlx : t.lexeme? = some lx) :
    ∃ u', Run u (t.token lx).halves u' ∧ Splits (t.after lx) u' := by
  cases hin : (t.token lx).closedInside? with
  | none =>
    rw [Token.halves_of_not_closed hin]
    exact h.step_of_not_closed hlx hin
  | some v =>
    rw [Token.halves_of_closed hin]
    exact h.step_of_closed hlx hin

/-- **All the tokens** are the halves of those of the first run. -/
theorem tokens_eq (h : Splits t u) : u.tokens = t.tokens.flatMap Token.halves := by
  induction t using tokens_induction generalizing u with
  | done t hlx =>
    rw [tokens_of_none hlx, List.flatMap_nil, tokens_eq_nil_iff, h.ahead_eq]
    exact lexeme?_eq_none_iff.mp hlx
  | step t lx hlx ih =>
    obtain ⟨u', hrun, hsplits⟩ := h.step hlx
    rw [hrun.tokens_eq, tokens_of_some hlx, List.flatMap_cons, ih hsplits]

end Splits

/-- A comment that is not split has a value. -/
theorem Whole.payload_ne_none {t : Tokenizer Cursor} (h : t.Whole) {token : Token}
    (hmem : token ∈ t.tokens) (hk : token.kind = .comment) : token.payload ≠ .none := by
  induction t using tokens_induction with
  | done t hlx =>
    rw [tokens_of_none hlx] at hmem
    cases hmem
  | step t lx hlx ih =>
    rw [tokens_of_some hlx] at hmem
    rcases List.mem_cons.mp hmem with rfl | hmem
    · obtain ⟨c, cs, -, rfl⟩ := h.lexeme?_cases hlx
      obtain ⟨-, ⟨ds, -, heq⟩ | ⟨ds, -, heq⟩⟩ := (rule_leading _ c cs).comment_cases hk
      · rw [heq]
        exact fun hnone => nomatch hnone
      · rw [heq, blockComment_of_whole h.1]
        exact fun hnone => nomatch hnone
    · exact ih (h.after hlx) hmem

theorem splits_ofSource (c : Cursor) (config : Config) :
    Splits (ofSource c { config with options := { commentMarkers := false } })
      (ofSource c { config with options := { commentMarkers := true } }) :=
  ⟨⟨rfl, rfl⟩, rfl, rfl, rfl, rfl, rfl, rfl, counts_ofSource c _⟩

end Tokenizer

end StyleLex
