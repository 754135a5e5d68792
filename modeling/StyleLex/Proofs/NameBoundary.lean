import StyleLex.Proofs.LongestName
import StyleLex.Proofs.MaximalMunch
import StyleLex.Proofs.StringEnd
import StyleLex.Proofs.TokenShape

/-!
# Proofs/NameBoundary — where white space ends a name

White space and the characters of names are two classes that know nothing of each other, and above
U+00B1 they meet: a name goes on over an ideographic space (`ideographicSpace_joins_names`).  Up to
there no white space can continue a name (`Chars.isSeparator`), so a name holds it behind a
backslash only (`Grammar.OnlyEscaped`), and two names with one such character between them are two
names (`separators_split_names`).
-/

namespace StyleLex

namespace Chars

/-- White space that cannot continue a name. -/
def isSeparator (c : Char) : Bool := isWhitespace c && c ≤ '\u00b1'

theorem isSeparator_iff {c : Char} :
    isSeparator c = true ↔ isWhitespace c = true ∧ c ≤ '\u00b1' := by
  rw [isSeparator, Bool.and_eq_true, decide_eq_true_eq]

theorem not_isSeparator_of_isName {c : Char} (h : isName c = true) : isSeparator c = false := by
  refine Bool.eq_false_iff.mpr fun hs => ?_
  obtain ⟨hw, hc⟩ := isSeparator_iff.mp hs
  rw [not_isName_of_isWhitespace hw hc] at h
  cases h

end Chars

open Chars

namespace Kind

/-- Whether the text of a token holds a name and, but for a mark, nothing else. -/
def holdsName : Kind → Bool
  | identifier | atIdentifier | hashName | function => true
  | _ => false

end Kind

namespace Grammar

/-! ## Behind a backslash -/

/-- **The characters of a class stand behind a backslash only.** -/
def OnlyEscaped (p : Char → Bool) (cs : List Char) : Prop :=
  ∀ i c, cs[i]? = some c → p c = true → EscapedAt cs i

variable {p : Char → Bool} {cs : List Char}

theorem onlyEscaped_nil (p : Char → Bool) : OnlyEscaped p [] := fun _ _ h => by cases h

theorem OnlyEscaped.cons {d : Char} (hd : p d = false) (hb : d ≠ '\\') (h : OnlyEscaped p cs) :
    OnlyEscaped p (d :: cs) := by
  intro i c hget hc
  cases i with
  | zero =>
    obtain rfl := Option.some.inj hget
    exact absurd hc (Bool.eq_false_iff.mp hd)
  | succ i =>
    have hshift := escapedAt_append (even_run_of_ne hb) cs i
    rw [Nat.add_comm]
    exact hshift.mpr (h i c hget hc)

theorem OnlyEscaped.escape (hb : p '\\' = false) (d : Char) (h : OnlyEscaped p cs) :
    OnlyEscaped p ('\\' :: d :: cs) := by
  intro i c hget hc
  obtain _ | _ | i := i
  · obtain rfl := Option.some.inj hget
    exact absurd hc (Bool.eq_false_iff.mp hb)
  · exact escapedAt_one _
  · have hshift := escapedAt_append (even_run_escape d) cs i
    rw [Nat.add_assoc, Nat.add_comm]
    exact hshift.mpr (h i c hget hc)

theorem OnlyEscaped.concat {d : Char} (hd : p d = false) (h : OnlyEscaped p cs) :
    OnlyEscaped p (cs ++ [d]) := by
  intro i c hget hc
  by_cases hi : i < cs.length
  · -- only what stands before a place counts
    rw [List.getElem?_append_left hi] at hget
    rw [EscapedAt, backslashesBefore, List.take_append_of_le_length (Nat.le_of_lt hi)]
    exact h i c hget hc
  · rw [List.getElem?_append_right (Nat.le_of_not_lt hi)] at hget
    obtain rfl := List.mem_singleton.mp (List.mem_of_getElem? hget)
    exact absurd hc (Bool.eq_false_iff.mp hd)

/-- **Items hold a separator behind a backslash only.** -/
theorem SingleItems.onlyEscaped (h : SingleItems cs) : OnlyEscaped isSeparator cs := by
  induction h with
  | nil => exact onlyEscaped_nil _
  | @char c _ hc _ ih =>
    refine ih.cons (not_isSeparator_of_isName hc) ?_
    rintro rfl
    exact absurd hc (by decide)
  | escaped _ _ ih => exact ih.escape (by decide) _

theorem Items.onlyEscaped (h : Items cs) : OnlyEscaped isSeparator cs :=
  (items_iff_singleItems.mp h).onlyEscaped

theorem Word.items (h : Word cs) : Items cs := by
  cases h with
  | mk _ hc tail => exact .cons (.char (isName_of_isNameStart hc)) tail

theorem Identifier.items (h : Identifier cs) : Items cs := by
  cases h with
  | mk head tail =>
    cases head with
    | char hc => exact .cons (.char (isName_of_isNameStart hc)) tail
    | code hds => exact .cons (.code hds) tail
    | escaped hhex hline => exact .cons (.escaped hhex hline) tail

end Grammar

open Grammar

/-- **A token that holds a name** holds a separator behind a backslash only. -/
theorem Shape.onlyEscaped {kind : Kind} {text : List Char} {payload : Payload String}
    (h : Shape kind text payload) (hk : kind.holdsName = true) : OnlyEscaped isSeparator text := by
  cases h with
  | identifier hword => exact hword.items.onlyEscaped
  | dashed hname => exact hname.items.onlyEscaped.cons (by decide) (by decide)
  | atIdentifier hid => exact hid.items.onlyEscaped.cons (by decide) (by decide)
  | hashName hname => exact hname.items.onlyEscaped.cons (by decide) (by decide)
  | function hword => exact hword.items.onlyEscaped.concat (by decide)
  | _ => cases hk

/-! ## Plain names -/

namespace Grammar

/-- **A name of plain characters** that begins with a letter. -/
inductive PlainName : List Char → Prop where
  | mk {c : Char} {cs : List Char} (hc : isLetter c = true)
      (tail : ∀ d ∈ cs, isName d = true) : PlainName (c :: cs)

theorem PlainName.names {cs : List Char} (h : PlainName cs) : ∀ d ∈ cs, isName d = true := by
  cases h with
  | mk hc tail =>
    exact List.forall_mem_cons.mpr ⟨isName_of_isNameStart (isNameStart_of_isLetter hc), tail⟩

theorem PlainName.append {cs ds : List Char} (h : PlainName cs) (hds : ∀ d ∈ ds, isName d = true) :
    PlainName (cs ++ ds) := by
  cases h with
  | mk hc tail => exact .mk hc fun d hd => (List.mem_append.mp hd).elim (tail d) (hds d)

end Grammar

namespace Extent

/-- What can neither continue a name nor escape anything begins no item. -/
theorem name_of_head? {cs : List Char} (h : ∀ d ∈ cs.head?, isName d = false ∧ d ≠ '\\') :
    name cs = 0 := by
  cases cs with
  | nil => rfl
  | cons c cs =>
    obtain ⟨hc, hb⟩ := h c rfl
    have hitem : nameItem (c :: cs) = 0 := by
      rw [nameItem, hc, escape_of_ne hb]
      rfl
    rw [name_eq, hitem, if_pos rfl]

end Extent

namespace Lexeme

open Extent

/-- **A plain name ends at a separator.** -/
theorem leading_plainName (o : Options) {c : Char} {cs rest : List Char} (hc : isLetter c = true)
    (hcs : ∀ d ∈ cs, isName d = true) (hrest : ∀ d ∈ rest.head?, isSeparator d = true) :
    leading o c (cs ++ rest) =
      { kind := .identifier, length := (c :: cs).length, release := .consuming } := by
  have hw := not_isWhitespace_of_isLetter hc
  have hstart := isNameStart_of_isLetter hc
  have hname : name (c :: cs ++ rest) = (c :: cs).length := by
    have hall : ∀ d ∈ c :: cs, isName d = true :=
      List.forall_mem_cons.mpr ⟨isName_of_isNameStart hstart, hcs⟩
    rw [name_append_names hall, name_of_head?, Nat.add_zero]
    intro d hd
    obtain ⟨hdw, hdle⟩ := isSeparator_iff.mp (hrest d hd)
    refine ⟨not_isName_of_isWhitespace hdw hdle, ?_⟩
    rintro rfl
    exact absurd hdw (by decide)
  have hrange : ¬(c = 'u' ∧ ∃ d ds, cs ++ rest = '+' :: d :: ds ∧ isHexDigit d = true) := by
    rintro ⟨-, d, ds, heq, -⟩
    cases cs with
    | nil =>
      obtain rfl : rest = '+' :: d :: ds := heq
      exact absurd (hrest '+' rfl) (by decide)
    | cons e es =>
      obtain ⟨rfl, -⟩ := List.cons.inj heq
      exact absurd (hcs '+' (List.mem_cons_self ..)) (by decide)
  have hparen : ((c :: cs ++ rest).drop (c :: cs).length).head? ≠ some '(' := by
    rw [List.drop_left]
    intro hhead
    exact absurd (hrest '(' hhead) (by decide)
  rw [leading_of_isNameStart o hw hstart, word_of_no_range hrange]
  change named (c :: cs ++ rest) = _
  simp only [named, hname, if_neg hparen]

/-- White space before what is none is a token of one character. -/
theorem leading_whitespace (o : Options) {x : Char} {rest : List Char} (hx : isWhitespace x = true)
    (hrest : ∀ d ∈ rest.head?, isWhitespace d = false) :
    leading o x rest = { kind := .whitespace, length := 1, release := .consuming } := by
  have hzero : whitespace rest = 0 := by
    cases rest with
    | nil => rfl
    | cons d ds => simp [whitespace, run, hrest d rfl]
  rw [leading, attempt?, hx, if_pos rfl, hzero]
  rfl

end Lexeme

/-- The kinds of tokens, with their texts. -/
def kindsAndTexts (tokens : List Token) : List (Kind × String) :=
  tokens.map fun token => (token.kind, token.text)

namespace Tokenizer

open Lexeme

/-- **A token that takes up some characters leaves the others.** -/
theorem exists_tokens_eq_cons {t : Tokenizer Cursor} {c : Char} {cs rest : List Char}
    (hahead : t.source.ahead = c :: cs ++ rest) (hclosing : t.closing = false) {lx : Lexeme}
    (hlx : leading t.config.options c (cs ++ rest) = lx) (hlen : lx.length = (c :: cs).length)
    (hopens : lx.opensComment = false) :
    ∃ u : Tokenizer Cursor, u.source.ahead = rest ∧ u.closing = false ∧
      kindsAndTexts t.tokens =
        (lx.kind, String.ofList (c :: cs)) :: kindsAndTexts u.tokens := by
  have hsome : t.lexeme? = some lx := hlx ▸ lexeme?_of_cons hahead hclosing
  refine ⟨t.after lx, ?_, hopens, ?_⟩
  · rw [ahead_after, hahead, hlen, List.drop_left]
  · have htext : (t.token lx).text = String.ofList (c :: cs) := by
      rw [token_leading hahead hlx, hlen]
      exact congrArg String.ofList List.take_left
    rw [tokens_of_some hsome, kindsAndTexts, List.map_cons, htext]
    rfl

/-- **A plain name** that ends at a separator, and what is left behind it. -/
theorem exists_tokens_eq_name {t : Tokenizer Cursor} {a rest : List Char} (ha : PlainName a)
    (hahead : t.source.ahead = a ++ rest) (hclosing : t.closing = false)
    (hrest : ∀ d ∈ rest.head?, isSeparator d = true) :
    ∃ u : Tokenizer Cursor, u.source.ahead = rest ∧ u.closing = false ∧
      kindsAndTexts t.tokens =
        (.identifier, String.ofList a) :: kindsAndTexts u.tokens := by
  cases ha with
  | mk hc hcs =>
    exact exists_tokens_eq_cons hahead hclosing (leading_plainName _ hc hcs hrest) rfl rfl

/-- A plain name that nothing follows. -/
theorem tokens_plainName {t : Tokenizer Cursor} {a : List Char} (ha : PlainName a)
    (hahead : t.source.ahead = a) (hclosing : t.closing = false) :
    kindsAndTexts t.tokens = [(.identifier, String.ofList a)] := by
  have hnil : t.source.ahead = a ++ [] := by rw [hahead, List.append_nil]
  obtain ⟨u, hu, -, htokens⟩ := exists_tokens_eq_name ha hnil hclosing (fun _ h => by cases h)
  rw [htokens, tokens_eq_nil_iff.mpr hu]
  rfl

/-- **Two names with a separator between them.** -/
theorem tokens_separated {a b : List Char} {x : Char} (ha : PlainName a) (hb : PlainName b)
    (hx : isSeparator x = true) :
    kindsAndTexts (tokenize (String.ofList (a ++ x :: b))) =
      [(.identifier, String.ofList a), (.whitespace, String.ofList [x]),
        (.identifier, String.ofList b)] := by
  have hfirst : ∀ d ∈ b.head?, isWhitespace d = false := by
    cases hb with
    | mk hc =>
      intro d hd
      obtain rfl := Option.some.inj hd
      exact not_isWhitespace_of_isLetter hc
  obtain ⟨u, hu, huclosing, hname⟩ :=
    exists_tokens_eq_name (t := ofText (a ++ x :: b)) ha rfl rfl fun d hd => by
      obtain rfl := Option.some.inj hd
      exact hx
  have hu : u.source.ahead = x :: [] ++ b := hu
  obtain ⟨v, hv, hvclosing, hblank⟩ := exists_tokens_eq_cons hu huclosing
    (leading_whitespace _ (isSeparator_iff.mp hx).1 hfirst) rfl rfl
  rw [tokenize_ofList, hname, hblank, tokens_plainName hb hv hvclosing]

/-- **Two names with white space between them that can stand in a name** are one. -/
theorem tokens_joined {a b : List Char} {x : Char} (ha : PlainName a) (hb : PlainName b)
    (hx : '\u00b1' < x) :
    kindsAndTexts (tokenize (String.ofList (a ++ x :: b))) =
      [(.identifier, String.ofList (a ++ x :: b))] := by
  have hname : isName x = true := isName_of_isNameStart (by simp [isNameStart, hx])
  rw [tokenize_ofList]
  exact tokens_plainName (ha.append (List.forall_mem_cons.mpr ⟨hname, hb.names⟩)) rfl rfl

/-- **Separators split names.**  A token that holds a name holds white space up to U+00B1 behind a
backslash only, in every window and with every option.  So, where two names of plain characters have
a white space character between them, they are two names if it is not above U+00B1.  What is above
can stand in a name, and then they are one. -/
theorem separators_split_names :
    (∀ (text : List Char) (config : Config) (t : Tokenizer Cursor),
      ofConfig? text config = .ok t → ∀ token ∈ t.tokens, token.kind.holdsName = true →
        OnlyEscaped isSeparator token.text.toList) ∧
    ∀ (a b : List Char) (x : Char), PlainName a → PlainName b → isWhitespace x = true →
      kindsAndTexts (tokenize (String.ofList (a ++ x :: b))) =
        if x ≤ '\u00b1' then
          [(.identifier, String.ofList a), (.whitespace, String.ofList [x]),
            (.identifier, String.ofList b)]
        else [(.identifier, String.ofList (a ++ x :: b))] := by
  constructor
  · intro text config t h token hmem hk
    exact ((run_rest t).shape (closesAhead_of_ofConfig? h) token hmem).onlyEscaped hk
  · intro a b x ha hb hx
    split
    · next hle => exact tokens_separated ha hb (isSeparator_iff.mpr ⟨hx, hle⟩)
    · next hgt => exact tokens_joined ha hb (Char.not_le.mp hgt)

/-- A blank behind a backslash, and blanks between names. -/
theorem separators_split_names_of_blank :
    (∃ t, ofConfig? ['a', '\\', ' ', 'b', ' ', 'c'] {} = .ok t ∧
      kindsAndTexts t.tokens =
        [(.identifier, "a\\ b"), (.whitespace, " "), (.identifier, "c")] ∧
      ∀ token ∈ t.tokens, token.kind.holdsName = true →
        OnlyEscaped isSeparator token.text.toList) ∧
    kindsAndTexts (tokenize (String.ofList (['a'] ++ '\u00a0' :: ['b']))) =
      [(.identifier, "a"), (.whitespace, "\u00a0"), (.identifier, "b")] ∧
    kindsAndTexts (tokenize (String.ofList (['a'] ++ '\u2003' :: ['b']))) =
      [(.identifier, "a\u2003b")] := by
  have ha : PlainName ['a'] := .mk (by decide) (by simp)
  have hb : PlainName ['b'] := .mk (by decide) (by simp)
  obtain ⟨hescaped, hsplit⟩ := separators_split_names
  refine ⟨⟨_, rfl, rfl, hescaped ['a', '\\', ' ', 'b', ' ', 'c'] {} _ rfl⟩, ?_, ?_⟩
  · exact hsplit ['a'] ['b'] '\u00a0' ha hb (by decide)
  · exact hsplit ['a'] ['b'] '\u2003' ha hb (by decide)

/-- **An ideographic space joins names.**  It is white space and can continue a name. -/
theorem ideographicSpace_joins_names :
    (¬∀ (text : String), ∀ token ∈ tokenize text, token.kind.holdsName = true →
      OnlyEscaped isWhitespace token.text.toList) ∧
    ¬∀ (a b : List Char) (x : Char), PlainName a → PlainName b → isWhitespace x = true →
      kindsAndTexts (tokenize (String.ofList (a ++ x :: b))) =
        [(.identifier, String.ofList a), (.whitespace, String.ofList [x]),
          (.identifier, String.ofList b)] := by
  have ha : PlainName ['a'] := .mk (by decide) (by simp)
  have hb : PlainName ['b'] := .mk (by decide) (by simp)
  have htokens := tokens_joined ha hb (x := '\u3000') (by decide)
  constructor
  · intro h
    have hin : (.identifier, String.ofList ['a', '\u3000', 'b']) ∈
        kindsAndTexts (tokenize (String.ofList ['a', '\u3000', 'b'])) :=
      htokens.symm ▸ List.mem_singleton.mpr rfl
    obtain ⟨token, hmem, hk⟩ := List.mem_map.mp hin
    obtain ⟨hkind, htext⟩ := Prod.mk.inj hk
    have hescaped := h _ token hmem (by rw [hkind]; rfl)
    rw [htext, String.toList_ofList] at hescaped
    have hnot : ¬EscapedAt ['a', '\u3000', 'b'] 1 := by
      rw [EscapedAt]
      decide
    exact hnot (hescaped 1 '\u3000' rfl (by decide))
  · intro h
    cases htokens.symm.trans (h ['a'] ['b'] '\u3000' ha hb (by decide))

end Tokenizer

end StyleLex
