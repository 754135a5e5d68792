import Mathlib.Order.Bounds.Defs
import StyleLex.Chars.Lemmas
import StyleLex.Proofs.Grammar
import StyleLex.Proofs.Locality
import StyleLex.Proofs.Run

/-!
# Proofs/LongestName — a name is the longest run of items

A name is scanned item after item, and an escape in hexadecimal takes up to six digits at once.  Its
length can be told without either: it is the greatest number of characters that are items
(`name_isGreatest`).  For this an escape may be read as a backslash with one character, whether or
not that is a digit (`Grammar.SingleItems`): the digits left over are name characters, so both
readings give the same lists (`items_iff_singleItems`) and the limit of six never matters.

An identifier is a name if it begins like one, and else nothing (`identifier_of_begins`,
`identifier_of_not_begins`).

What a mark, a `-` or a word begins is then told by the names ahead (`Token.FollowsNames`), and all
of it at every place where a token begins (`names_are_longest`).
-/

namespace StyleLex

open Chars

namespace Grammar

/-- **Items that can continue a name**, an escape being a backslash with any one character that does
not end a line. -/
inductive SingleItems : List Char → Prop where
  | nil : SingleItems []
  | char {c : Char} {cs : List Char} (hc : isName c = true) (tail : SingleItems cs) :
      SingleItems (c :: cs)
  | escaped {c : Char} {cs : List Char} (hc : isLineEnd c = false) (tail : SingleItems cs) :
      SingleItems ('\\' :: c :: cs)

theorem SingleItems.append_names {ds cs : List Char} (h : ∀ c ∈ ds, isName c = true)
    (tail : SingleItems cs) : SingleItems (ds ++ cs) := by
  induction ds with
  | nil => exact tail
  | cons d ds ih =>
    obtain ⟨hd, hds⟩ := List.forall_mem_cons.mp h
    exact .char hd (ih hds)

theorem SingleItems.append_item {item cs : List Char} (h : Item isName item)
    (tail : SingleItems cs) : SingleItems (item ++ cs) := by
  cases h with
  | char hc => exact .char hc tail
  | escaped _ hline => exact .escaped hline tail
  | @code ds hds =>
    cases ds with
    | nil => exact absurd rfl hds.ne_nil
    | cons d ds =>
      obtain ⟨hd, hrest⟩ := List.forall_mem_cons.mp hds.digits
      exact .escaped (not_isLineEnd_of_isHexDigit hd)
        (.append_names (fun c hc => isName_of_isHexDigit (hrest c hc)) tail)

/-- A backslash and one character are an item, be the character a digit or not. -/
theorem item_escaped {c : Char} (hc : isLineEnd c = false) : Item isName ['\\', c] := by
  cases hhex : isHexDigit c with
  | false => exact .escaped hhex hc
  | true => exact .code ⟨List.cons_ne_nil _ _, Nat.le_add_left 1 5, by simpa using hhex⟩

/-- **Both readings of an escape give the same lists.** -/
theorem items_iff_singleItems {cs : List Char} : Items cs ↔ SingleItems cs := by
  constructor
  · intro h
    induction h with
    | nil => exact .nil
    | cons head _ ih => exact .append_item head ih
  · intro h
    induction h with
    | nil => exact .nil
    | char hc _ ih => exact .cons (.char hc) ih
    | escaped hc _ ih => exact .cons (item_escaped hc) ih

/-- **The beginning of an identifier**: a character that can begin a name, or an escape. -/
inductive Begins : List Char → Prop where
  | char {c : Char} {cs : List Char} (hc : isNameStart c = true) : Begins (c :: cs)
  | escaped {c : Char} {cs : List Char} (hc : isLineEnd c = false) : Begins ('\\' :: c :: cs)

theorem Begins.of_item {item : List Char} (h : Item isNameStart item) (cs : List Char) :
    Begins (item ++ cs) := by
  cases h with
  | char hc => exact .char hc
  | escaped _ hline => exact .escaped hline
  | @code ds hds =>
    cases ds with
    | nil => exact absurd rfl hds.ne_nil
    | cons d ds =>
      exact .escaped (not_isLineEnd_of_isHexDigit (hds.digits d (List.mem_cons_self ..)))

end Grammar

/-! ## Scanners -/

namespace Extent

open Grammar

theorem name_append_names {ds : List Char} (h : ∀ c ∈ ds, isName c = true) (cs : List Char) :
    name (ds ++ cs) = ds.length + name cs := by
  induction ds with
  | nil => exact (Nat.zero_add _).symm
  | cons d ds ih =>
    obtain ⟨hd, hds⟩ := List.forall_mem_cons.mp h
    rw [List.cons_append, name_cons_of_isName hd, ih hds, List.length_cons]
    omega

theorem of_mem_take_hexDigits {cs : List Char} :
    ∀ c ∈ cs.take (hexDigits cs), isHexDigit c = true := by
  intro c hc
  have hpos : 0 < hexDigits cs := Nat.pos_of_ne_zero fun h0 => by
    rw [h0, List.take_zero] at hc
    cases hc
  exact (hexCode_take_hexDigits hpos).digits c hc

/-- A code in hexadecimal adds its backslash only: its digits are in the name by themselves. -/
theorem name_code {c : Char} (hc : isHexDigit c = true) (cs : List Char) :
    name ('\\' :: c :: cs) = 1 + name (c :: cs) := by
  have hitem : nameItem ('\\' :: c :: cs) = 1 + hexDigits (c :: cs) := by
    change (if isHexDigit c then _ else _) = _
    exact if_pos hc
  have hdigits := name_append_names
    (fun d hd => isName_of_isHexDigit (@of_mem_take_hexDigits (c :: cs) d hd))
    ((c :: cs).drop (hexDigits (c :: cs)))
  rw [List.take_append_drop, List.length_take_of_le (hexDigits_le _)] at hdigits
  rw [name_eq, hitem, if_neg (by omega), Nat.add_comm 1, List.drop_succ_cons, hdigits]
  omega

/-- **An escape counts for two**, and what follows it is a name of its own. -/
theorem name_escaped {c : Char} (hc : isLineEnd c = false) (cs : List Char) :
    name ('\\' :: c :: cs) = 2 + name cs := by
  cases hhex : isHexDigit c with
  | true =>
    rw [name_code hhex, name_cons_of_isName (isName_of_isHexDigit hhex)]
    omega
  | false =>
    have hitem : nameItem ('\\' :: c :: cs) = 2 := by
      change (if isHexDigit c then _ else if isLineEnd c then 0 else 2) = _
      rw [hhex, hc]
      rfl
    rw [name_eq, hitem, if_neg (Nat.succ_ne_zero 1)]
    rfl

/-- **No run of items is longer than the name.** -/
theorem length_le_name {ds : List Char} (h : SingleItems ds) (cs : List Char) :
    ds.length ≤ name (ds ++ cs) := by
  induction h with
  | nil => exact Nat.zero_le _
  | char hc _ ih =>
    rw [List.cons_append, name_cons_of_isName hc, List.length_cons, Nat.add_comm]
    exact Nat.add_le_add_left ih 1
  | escaped hc _ ih =>
    rw [List.cons_append, List.cons_append, name_escaped hc, List.length_cons, List.length_cons,
      Nat.add_comm 2]
    exact Nat.add_le_add_right ih 2

/-- **A name is the longest run of items.** -/
theorem name_isGreatest (cs : List Char) :
    IsGreatest {n | n ≤ cs.length ∧ SingleItems (cs.take n)} (name cs) := by
  constructor
  · exact ⟨name_le cs, items_iff_singleItems.mp (items_take_name cs)⟩
  · rintro n ⟨hn, hitems⟩
    have hle := length_le_name hitems (cs.drop n)
    rwa [List.take_append_drop, List.length_take_of_le hn] at hle

/-! ## Identifiers -/

theorem nameItem_of_nameStart_pos : ∀ {cs : List Char}, 0 < nameStart cs →
    nameItem cs = nameStart cs
  | [], h => absurd h (Nat.lt_irrefl 0)
  | c :: cs, h => by
      rw [nameStart] at h ⊢
      rw [nameItem]
      split at h
      · next hc => rw [if_pos hc, if_pos (by simp [isName, hc])]
      · next hc =>
        by_cases hb : c = '\\'
        · subst hb
          rfl
        · rw [escape_of_ne hb] at h
          exact absurd h (Nat.lt_irrefl 0)

/-- **An identifier is a name** whose first item can begin one. -/
theorem identifier_eq (cs : List Char) :
    identifier cs = if nameStart cs = 0 then 0 else name cs := by
  unfold identifier
  split
  · next h => rw [if_pos h]
  · next n h =>
    have hitem : nameItem cs = n + 1 := (nameItem_of_nameStart_pos (by omega)).trans h
    rw [h, if_neg (Nat.succ_ne_zero n), name_eq cs, hitem, if_neg (Nat.succ_ne_zero n)]

theorem nameStart_pos_of_begins {cs : List Char} (h : Begins cs) : 0 < nameStart cs := by
  cases h with
  | char hc =>
    rw [nameStart, if_pos hc]
    exact Nat.one_pos
  | @escaped c cs hc =>
    change 0 < if isHexDigit c then 1 + hexDigits (c :: cs) else if isLineEnd c then 0 else 2
    rw [hc]
    split
    · exact Nat.lt_add_right _ Nat.one_pos
    · exact Nat.two_pos

theorem begins_of_nameStart_pos {cs : List Char} (h : 0 < nameStart cs) : Begins cs := by
  rw [← List.take_append_drop (nameStart cs) cs]
  exact .of_item (item_take_nameStart h) _

/-- **An identifier is a name that begins like one.** -/
theorem identifier_of_begins {cs : List Char} (h : Begins cs) : identifier cs = name cs := by
  rw [identifier_eq, if_neg (Nat.ne_of_gt (nameStart_pos_of_begins h))]

theorem identifier_of_not_begins {cs : List Char} (h : ¬Begins cs) : identifier cs = 0 := by
  rw [identifier_eq, if_pos]
  exact Nat.eq_zero_of_not_pos fun hpos => h (begins_of_nameStart_pos hpos)

end Extent

/-! ## Tokens -/

namespace Lexeme

open Extent

/-- **What a mark begins** with `n` characters behind it that belong to it: a token of the kind if
there are any, and else an operator. -/
theorem getD_counted? (kind : Kind) (hk : kind ≠ .operator) (n : Nat) :
    let lx := (counted? kind n).getD (operator 1)
    (lx.kind = kind ↔ 0 < n) ∧ (0 < n → lx.length = n + 1) := by
  cases n with
  | zero => exact ⟨iff_of_false (fun h => hk h.symm) (Nat.lt_irrefl 0), fun h => by cases h⟩
  | succ m => exact ⟨iff_of_true rfl (Nat.succ_pos m), fun _ => Nat.add_comm ..⟩

theorem take_length_eq_iff {cs ds : List Char} : cs.take ds.length = ds ↔ ds <+: cs :=
  eq_comm.trans List.prefix_iff_eq_take.symm

theorem any_head?_iff {p : Char → Bool} {cs : List Char} :
    ¬cs.head?.any p = true ↔ ∀ d ∈ cs.head?, p d = false := by
  cases cs <;> simp

theorem leading_dash (o : Options) {cs : List Char} (harrow : ¬['-', '>'] <+: cs)
    (hdigit : ∀ d ∈ cs.head?, isDigit d = false) :
    leading o '-' cs = (dashed? cs).getD (operator 1) := by
  have htake : cs.take 2 ≠ ['-', '>'] := fun h => harrow (take_length_eq_iff.mp h)
  change (minus? cs).getD _ = _
  rw [minus?, if_neg htake, if_neg (any_head?_iff.mpr hdigit)]

theorem leading_of_isNameStart (o : Options) {c : Char} (hw : isWhitespace c = false)
    (hc : isNameStart c = true) (cs : List Char) : leading o c cs = word (c :: cs) := by
  rw [leading, attempt?, hw, not_isDigit_of_isNameStart hc, not_isDelimiter_of_isNameStart hc, hc]
  rfl

/-- **A range of code points** begins with `u+` and a hexadecimal digit. -/
theorem word_of_no_range {c : Char} {cs : List Char}
    (h : ¬(c = 'u' ∧ ∃ d ds, cs = '+' :: d :: ds ∧ isHexDigit d = true)) :
    word (c :: cs) = named (c :: cs) := by
  have hnone : unicodeRange? (c :: cs) = none := by
    unfold unicodeRange?
    split
    · next ds heq =>
      obtain ⟨rfl, rfl⟩ := List.cons.inj heq
      cases ds with
      | nil => rfl
      | cons d ds =>
        have hd : ¬isHexDigit d = true := fun hd => h ⟨rfl, d, ds, rfl, hd⟩
        have hzero : hexDigits (d :: ds) = 0 := by
          rw [hexDigits, run, maxHexDigits, List.take_succ_cons, List.takeWhile_cons_of_neg hd]
          rfl
        rw [hzero]
    · rfl
  rw [word, hnone]
  rfl

/-- **A name before a parenthesis** takes it along. -/
theorem named_of_paren {cs : List Char} (h : (cs.drop (name cs)).head? = some '(') :
    ((named cs).kind = .function ∧ (named cs).length = name cs + 1) ∨
      ((named cs).kind = .uri ∧ name cs + 1 ≤ (named cs).length) := by
  rw [named]
  simp only [if_pos h]
  split
  · exact Or.inr ⟨rfl, lt_uri_length ..⟩
  · exact Or.inl ⟨rfl, rfl⟩

theorem named_of_no_paren {cs : List Char} (h : (cs.drop (name cs)).head? ≠ some '(') :
    (named cs).kind = .identifier ∧ (named cs).length = name cs := by
  simp only [named, if_neg h, and_self]

/-- **An identifier stands before a parenthesis** only if it begins with a `-`. -/
theorem Rule.dash_of_paren {o : Options} {c : Char} {cs : List Char} {lx : Lexeme}
    (h : Rule o c cs lx) (hk : lx.kind = .identifier)
    (hparen : ((c :: cs).drop lx.length).head? = some '(') : c = '-' := by
  cases h with
  | dashed => rfl
  | numeric | negative => exact absurd hk (numeric_kind_ne (by decide) _ _)
  | blockComment cs =>
    rw [kind_blockComment] at hk
    cases hk
  | named =>
    by_cases hp : ((c :: cs).drop (name (c :: cs))).head? = some '('
    · rcases named_of_paren hp with ⟨hkind, -⟩ | ⟨hkind, -⟩
      all_goals cases hkind.symm.trans hk
    · rw [(named_of_no_paren hp).2] at hparen
      exact absurd hparen hp
  | _ => cases hk

end Lexeme

open Extent

namespace Token

/-- **What a mark begins**: a token of the kind exactly if `n` characters after the mark belong to
it, and then these and the mark are its text. -/
structure Marks (token : Token) (kind : Kind) (mark : Char) (cs : List Char) (n : Nat) : Prop where
  kind_iff : token.kind = kind ↔ 0 < n
  text_eq (h : 0 < n) : token.text.toList = mark :: cs.take n

/-- **What the name `name` begins**, `rest` being what follows it: with a parenthesis directly
behind it a function or a resource, and else an identifier. -/
structure Calls (token : Token) (name rest : List Char) : Prop where
  kind_iff : token.kind = .function ∨ token.kind = .uri ↔ rest.head? = some '('
  prefix_text (h : rest.head? = some '(') : name ++ ['('] <+: token.text.toList
  text_of_function (h : token.kind = .function) : token.text.toList = name ++ ['(']
  text_of_ne (h : rest.head? ≠ some '(') :
    token.kind = .identifier ∧ token.text.toList = name

/-- **What a token has to do with the names ahead**, where it begins with `c` and `cs` follows. -/
structure FollowsNames (token : Token) (c : Char) (cs : List Char) : Prop where
  atIdentifier (h : c = '@') : token.Marks .atIdentifier '@' cs (identifier cs)
  hashName (h : c = '#') : token.Marks .hashName '#' cs (name cs)
  dashed (h : c = '-') (harrow : ¬['-', '>'] <+: cs) (hdigit : ∀ d ∈ cs.head?, isDigit d = false) :
    token.Marks .identifier '-' cs (name cs)
  word (hw : Chars.isWhitespace c = false) (hc : isNameStart c = true)
    (hrange : ¬(c = 'u' ∧ ∃ d ds, cs = '+' :: d :: ds ∧ isHexDigit d = true)) :
    token.Calls ((c :: cs).take (name (c :: cs))) ((c :: cs).drop (name (c :: cs)))

end Token

namespace Tokenizer

/-- A token that is measured by a count of the characters after its mark. -/
theorem marks_token {token : Token} {kind : Kind} {mark : Char} {cs : List Char} {n : Nat}
    {lx : Lexeme} (hkind : token.kind = lx.kind)
    (htext : token.text.toList = (mark :: cs).take lx.length)
    (h : (lx.kind = kind ↔ 0 < n) ∧ (0 < n → lx.length = n + 1)) : token.Marks kind mark cs n where
  kind_iff := hkind ▸ h.1
  text_eq := fun hn => by rw [htext, h.2 hn, List.take_succ_cons]

theorem calls_token {token : Token} {cs : List Char}
    (hkind : token.kind = (Lexeme.named cs).kind)
    (htext : token.text.toList = cs.take (Lexeme.named cs).length) :
    token.Calls (cs.take (name cs)) (cs.drop (name cs)) := by
  by_cases hp : (cs.drop (name cs)).head? = some '('
  · have htake := take_succ_of_head?_drop hp
    rcases Lexeme.named_of_paren hp with ⟨hfunction, hlen⟩ | ⟨huri, hle⟩
    · rw [hfunction] at hkind
      rw [hlen, htake] at htext
      exact ⟨iff_of_true (Or.inl hkind) hp, fun _ => ⟨[], by rw [htext, List.append_nil]⟩,
        fun _ => htext, fun h => absurd hp h⟩
    · rw [huri] at hkind
      refine ⟨iff_of_true (Or.inr hkind) hp, fun _ => ?_, by simp [hkind], fun h => absurd hp h⟩
      rw [htext, ← htake]
      exact List.take_prefix_take_left hle
  · obtain ⟨hid, hlen⟩ := Lexeme.named_of_no_paren hp
    rw [hid] at hkind
    rw [hlen] at htext
    exact ⟨iff_of_false (by simp [hkind]) hp, fun h => absurd h hp, by simp [hkind],
      fun _ => ⟨hkind, htext⟩⟩

/-- **Every token follows the names ahead.** -/
theorem followsNames_token {t : Tokenizer Cursor} {c : Char} {cs : List Char}
    (hcs : t.source.ahead = c :: cs) :
    (t.token (Lexeme.leading t.config.options c cs)).FollowsNames c cs := by
  have hle := (Lexeme.leading_length t.config.options c cs).2
  have htext : (t.token (Lexeme.leading t.config.options c cs)).text.toList =
      (c :: cs).take (Lexeme.leading t.config.options c cs).length := by
    rw [token_eq (by rw [hcs]; exact hle), String.toList_ofList, hcs]
  constructor
  · rintro rfl
    exact marks_token rfl htext
      (Lexeme.getD_counted? .atIdentifier Kind.noConfusion (identifier cs))
  · rintro rfl
    exact marks_token rfl htext (Lexeme.getD_counted? .hashName Kind.noConfusion (name cs))
  · rintro rfl harrow hdigit
    rw [Lexeme.leading_dash _ harrow hdigit] at htext ⊢
    exact marks_token rfl htext (Lexeme.getD_counted? .identifier Kind.noConfusion (name cs))
  · intro hw hc hrange
    rw [Lexeme.leading_of_isNameStart _ hw hc, Lexeme.word_of_no_range hrange] at htext ⊢
    exact calls_token rfl htext

/-- **Names are longest matches.**  Wherever a source stands, and at any distance from there, the
length of a name is the greatest number of characters that are items, whether an escape in
hexadecimal has one digit or up to six.  An identifier is the same if it begins like one, and else
nothing.  These are the numbers that a cursor in machine words counts there by looking at one place
after another.  So, wherever a token begins, `@`, `#` and `-` begin what they mark exactly if there
is an identifier or a name behind them, and what begins with a name is told by whether a parenthesis
follows the name directly.  An identifier stands directly before a parenthesis only if it begins
with a `-`. -/
theorem names_are_longest :
    (∀ (s : Cursor) (offset : Nat), ∃ cs, cs = s.ahead.drop offset ∧
      (∀ words : Checked, words.Mirrors s → words.stop ≤ maxPosition →
        words.position + offset ≤ maxPosition →
          Construct.name.count? words.view offset = some (name cs) ∧
          Construct.identifier.count? words.view offset = some (identifier cs)) ∧
      IsGreatest {n | n ≤ cs.length ∧ Grammar.SingleItems (cs.take n)} (name cs) ∧
      IsGreatest {n | n ≤ cs.length ∧ Grammar.Items (cs.take n)} (name cs) ∧
      (Grammar.Begins cs → identifier cs = name cs) ∧
      (¬Grammar.Begins cs → identifier cs = 0)) ∧
    ∀ (t : Tokenizer Cursor) (c : Char) (cs : List Char), t.closing = false →
      t.source.ahead = c :: cs →
        ∃ token t', Id.run t.next? = some (token, t') ∧ token.FollowsNames c cs ∧
          (token.kind = .identifier → t'.source.ahead.head? = some '(' → c = '-') := by
  constructor
  · intro s offset
    refine ⟨_, rfl, fun words hmirrors hstop hsum => ?_, name_isGreatest _, ?_,
      identifier_of_begins, identifier_of_not_begins⟩
    · exact ⟨hmirrors.count?_eq_some hstop offset hsum .name,
        hmirrors.count?_eq_some hstop offset hsum .identifier⟩
    · simp only [Grammar.items_iff_singleItems]
      exact name_isGreatest _
  · intro t c cs hclosing hcs
    refine ⟨_, _, next?_eq_some_iff.mpr ⟨_, lexeme?_of_cons hcs hclosing, rfl, rfl⟩,
      followsNames_token hcs, ?_⟩
    intro hk hparen
    rw [ahead_after, hcs] at hparen
    exact (Lexeme.rule_leading t.config.options c cs).dash_of_paren hk hparen

/-- An identifier before a parenthesis, which does begin with a `-`.  Behind that a name of one
escape is counted. -/
theorem names_are_longest_of_dash :
    Construct.name.count? (Checked.atStart ['-', '\\', '4', '1', '('] 0 5).view 1 = some 3 ∧
    ∃ token t', Id.run (ofText ['-', '\\', '4', '1', '(']).next? = some (token, t') ∧
      token.kind = .identifier ∧ t'.source.ahead = ['('] ∧
      token.FollowsNames '-' ['\\', '4', '1', '('] := by
  obtain ⟨cs, rfl, hcounts, -⟩ :=
    names_are_longest.1 (Cursor.ofText ['-', '\\', '4', '1', '(']) 1
  obtain ⟨token, t', hnext, hfollows, -⟩ :=
    names_are_longest.2 (ofText ['-', '\\', '4', '1', '(']) '-' ['\\', '4', '1', '('] rfl rfl
  obtain ⟨rfl, rfl⟩ := Prod.mk.inj (Option.some.inj hnext)
  refine ⟨(hcounts (.atStart ['-', '\\', '4', '1', '('] 0 5) ?_ (by decide) (by decide)).1, _, _,
    hnext, rfl, rfl, hfollows⟩
  exact ⟨rfl, by decide, rfl, rfl, rfl⟩

end Tokenizer

end StyleLex
