import StyleLex.Chars.Lemmas
import StyleLex.Proofs.StringEnd
import StyleLex.Proofs.TokenShape

/-!
# Proofs/ResourceExtent — how far a string and a resource reach

What follows the parenthesis of a resource is scanned five times over: white space, the value, what
closes it if it is quoted, white space, and the closing parenthesis.  Each of these may find nothing
or come to the end of the text.  `Grammar.ResourceParts` says what they make of any text, malformed
or not, and `Lexeme.exists_resourceParts` that they do.

The two main statements are about the tokens.  A string ends at its first stop, be it a token or the
value of a resource (`strings_end_at_first_stop`).  A resource begins exactly where `url(` or `uri(`
stands, and it has the parts that follow and nothing more (`resource_extent`).
-/

namespace StyleLex

open Chars

namespace Grammar

/-! ## The parts of a resource -/

/-- **The value of a resource** that stands before `rest`: quoted, or a run of characters that are
neither white space nor a closing parenthesis. -/
inductive ResourceValue : (text value rest : List Char) → Prop where
  | bare {value rest : List Char} (hq : ∀ c ∈ (value ++ rest).head?, isQuote c = false)
      (run : MaximalRun (fun c => !isWhitespace c && c != ')') value rest) :
      ResourceValue value value rest
  | quoted {q : Char} {cs value close rest : List Char} (hq : isQuote q = true)
      (parts : StringParts q cs value close rest) :
      ResourceValue (q :: (value ++ close)) value rest

/-- **What a resource has behind its value**: white space, and a closing parenthesis if that is
next. -/
inductive ResourceEnd : (behind rest : List Char) → Prop where
  | closed {blank rest : List Char} (all : ∀ c ∈ blank, isWhitespace c = true) :
      ResourceEnd (blank ++ [')']) rest
  | missing {blank rest : List Char} (run : MaximalRun isWhitespace blank rest)
      (hp : rest.head? ≠ some ')') : ResourceEnd blank rest

/-- **A resource behind its parenthesis**: white space, the value, and what stands behind it. -/
structure ResourceParts (cs blank text value behind rest : List Char) : Prop where
  eq_append : cs = blank ++ (text ++ (behind ++ rest))
  blank_run : MaximalRun isWhitespace blank (text ++ (behind ++ rest))
  value_ends : ResourceValue text value (behind ++ rest)
  behind_ends : ResourceEnd behind rest

/-- **A quote behind white space begins the value**, which ends like any string. -/
theorem ResourceParts.of_quote {q : Char} (hq : isQuote q = true)
    {blank cs blank' text value behind rest : List Char}
    (hblank : ∀ c ∈ blank, isWhitespace c = true)
    (h : ResourceParts (blank ++ q :: cs) blank' text value behind rest) :
    blank = blank' ∧ ∃ close, text = q :: (value ++ close) ∧
      StringParts q cs value close (behind ++ rest) := by
  have hrun : MaximalRun isWhitespace blank (q :: cs) := by
    refine ⟨hblank, fun c hc => ?_⟩
    obtain rfl := Option.some.inj hc
    exact not_isWhitespace_of_isQuote hq
  obtain ⟨rfl, htail⟩ := hrun.unique h.blank_run h.eq_append
  refine ⟨rfl, ?_⟩
  cases h.value_ends with
  | bare hbare =>
    rw [← htail] at hbare
    exact absurd hq (Bool.eq_false_iff.mp (hbare q rfl))
  | @quoted q' cs' value close _ _ parts =>
    rw [List.cons_append, List.append_assoc, ← parts.eq_append] at htail
    obtain ⟨rfl, rfl⟩ := List.cons.inj htail
    exact ⟨close, rfl, parts⟩

end Grammar

/-! ## The scans of a resource -/

namespace Lexeme

open Extent Grammar

/-- **What is scanned as the value of a resource.** -/
theorem exists_resourceValue (cs : List Char) :
    ∃ text value rest, cs = text ++ rest ∧ ResourceValue text value rest ∧
      (resource cs).2 = text.length ∧ Span.cut cs (resource cs).1 = String.ofList value := by
  cases cs with
  | nil => exact ⟨[], [], [], rfl, .bare (by simp) ⟨by simp, by simp⟩, rfl, rfl⟩
  | cons c cs =>
    rw [resource]
    split
    · next hq =>
      obtain ⟨value, close, rest, parts, hlen, hclosed⟩ := exists_stringParts c cs
      refine ⟨c :: (value ++ close), value, rest, ?_, .quoted hq parts, ?_, ?_⟩
      · rw [List.cons_append, List.append_assoc, ← parts.eq_append]
      · rw [List.length_cons, List.length_append, hclosed]
        exact Nat.add_comm ..
      · have hcut := Span.cut_behind [c] cs value.length
        rw [parts.eq_append, List.take_left, ← parts.eq_append, hlen] at hcut
        exact hcut
    · next hq =>
      have hrun := maximalRun_take_run (fun d => !isWhitespace d && d != ')') (c :: cs)
      have hsplit := List.take_append_drop (bare (c :: cs)) (c :: cs)
      refine ⟨_, _, _, hsplit.symm, .bare ?_ hrun, ?_, ?_⟩
      · intro d hd
        rw [hsplit] at hd
        obtain rfl := Option.some.inj hd
        exact Bool.eq_false_iff.mpr hq
      · exact (List.length_take_of_le (bare_le _)).symm
      · rfl

/-- **What is scanned behind the value of a resource.** -/
theorem exists_resourceEnd (cs : List Char) :
    ∃ behind rest, cs = behind ++ rest ∧ ResourceEnd behind rest ∧
      behind.length =
        whitespace cs + if (cs.drop (whitespace cs)).head? = some ')' then 1 else 0 := by
  have hrun : MaximalRun isWhitespace (cs.take (whitespace cs)) (cs.drop (whitespace cs)) :=
    maximalRun_take_run isWhitespace cs
  have hlen : (cs.take (whitespace cs)).length = whitespace cs :=
    List.length_take_of_le (whitespace_le cs)
  split
  · next hp =>
    refine ⟨_, cs.drop (whitespace cs + 1), ?_, .closed hrun.all, ?_⟩
    · have htake := take_succ_of_head?_drop hp
      exact ((congrArg (· ++ _) htake).symm.trans (List.take_append_drop ..)).symm
    · exact (List.length_append ..).trans (congrArg (· + 1) hlen)
  · next hp => exact ⟨_, _, (List.take_append_drop ..).symm, .missing hrun hp, hlen⟩

/-- **What is scanned as a resource.** -/
theorem exists_resourceParts (scheme cs : List Char) :
    ∃ blank text value behind rest, ResourceParts cs blank text value behind rest ∧
      (uri scheme.length cs).length =
        (scheme ++ '(' :: (blank ++ (text ++ behind))).length ∧
      (uri scheme.length cs).payload.map (Span.cut (scheme ++ '(' :: cs)) =
        .uri (String.ofList scheme) (String.ofList value) := by
  have hblank : (cs.take (whitespace cs)).length = whitespace cs :=
    List.length_take_of_le (whitespace_le cs)
  have hrun : MaximalRun isWhitespace (cs.take (whitespace cs)) (cs.drop (whitespace cs)) :=
    maximalRun_take_run isWhitespace cs
  have hsplit := List.take_append_drop (whitespace cs) cs
  obtain ⟨text, value, after, htext, hvalue, hlen, hcut⟩ :=
    exists_resourceValue (cs.drop (whitespace cs))
  obtain ⟨behind, rest, hbehind, hend, hlen'⟩ := exists_resourceEnd after
  have hdrop : (cs.drop (whitespace cs)).drop text.length = after := by
    rw [htext, List.drop_left]
  subst hbehind
  refine ⟨_, text, value, behind, rest, ⟨?_, htext ▸ hrun, hvalue, hend⟩, ?_, ?_⟩
  · rw [← htext, hsplit]
  · simp only [uri, hlen, hdrop, List.length_append, List.length_cons, hblank, hlen']
    omega
  · have hopen : (scheme ++ ['(']).length = scheme.length + 1 := List.length_append
    have hscheme : Span.cut (scheme ++ '(' :: cs) ⟨0, scheme.length⟩ = String.ofList scheme := by
      rw [Span.cut, List.drop_zero, Nat.sub_zero, List.take_left]
    simp only [uri, Payload.map]
    rw [hscheme, Span.cut_shift, List.append_cons, ← hopen, List.drop_length_add_append, hcut]

/-- **A scheme and a parenthesis begin a resource.** -/
theorem leading_scheme (o : Options) {scheme : List Char}
    (hs : scheme = ['u', 'r', 'l'] ∨ scheme = ['u', 'r', 'i']) (cs : List Char) :
    ∃ c ds, scheme ++ '(' :: cs = c :: ds ∧ leading o c ds = uri scheme.length cs := by
  obtain rfl | rfl := hs
  all_goals exact ⟨_, _, rfl, rfl⟩

end Lexeme

/-! ## Tokens -/

namespace Tokenizer

open Grammar

/-- **A scheme and a parenthesis ahead** are the beginning of a resource, which ends as its parts
do. -/
theorem next?_of_scheme {t : Tokenizer Cursor} (hc : t.closing = false) {scheme cs : List Char}
    (hs : scheme = ['u', 'r', 'l'] ∨ scheme = ['u', 'r', 'i'])
    (hcs : t.source.ahead = scheme ++ '(' :: cs) :
    ∃ token t' blank text value behind, Id.run t.next? = some (token, t') ∧ token.kind = .uri ∧
      ResourceParts cs blank text value behind t'.source.ahead ∧
      token.text.toList = scheme ++ '(' :: (blank ++ (text ++ behind)) ∧
      token.payload = .uri (String.ofList scheme) (String.ofList value) := by
  obtain ⟨c, ds, hds, hlead⟩ := Lexeme.leading_scheme t.config.options hs cs
  obtain ⟨blank, text, value, behind, rest, parts, hlen, hpayload⟩ :=
    Lexeme.exists_resourceParts scheme cs
  have hsplit : scheme ++ '(' :: cs = scheme ++ '(' :: (blank ++ (text ++ behind)) ++ rest := by
    simp only [parts.eq_append, List.append_assoc, List.cons_append]
  have hrest : (t.after (Lexeme.uri scheme.length cs)).source.ahead = rest := by
    rw [ahead_after, hcs, hlen, hsplit, List.drop_left]
  refine ⟨_, _, blank, text, value, behind, next?_of_cons (hcs.trans hds) hc, ?_, ?_, ?_, ?_⟩
  · rw [hlead]
    rfl
  · rw [hlead, hrest]
    exact parts
  · rw [hlead, token_leading (hcs.trans hds) hlead, ← hds, hlen, hsplit, List.take_left,
      String.toList_ofList]
  · rw [hlead, token_leading (hcs.trans hds) hlead, ← hds]
    exact hpayload

/-- A token that is a resource begins with a scheme and a parenthesis. -/
theorem scheme_of_kind_eq_uri {t : Tokenizer Cursor} (hi : t.ClosesAhead) {lx : Lexeme}
    (hlx : t.lexeme? = some lx) (hk : (t.token lx).kind = .uri) :
    ['u', 'r', 'l', '('] <+: t.source.ahead ∨ ['u', 'r', 'i', '('] <+: t.source.ahead := by
  have hle := length_le_ahead hi hlx
  have hshape := shape_token hi hlx
  have htext : (t.token lx).text.toList <+: t.source.ahead := by
    rw [token_eq hle, String.toList_ofList]
    exact List.take_prefix ..
  rw [hk] at hshape
  generalize (t.token lx).text.toList = chars at hshape htext
  generalize (t.token lx).payload = payload at hshape
  cases hshape with
  | @uri scheme before text value after close hs =>
    simp only [Lexeme.isScheme, Bool.or_eq_true, beq_iff_eq] at hs
    obtain rfl | rfl := hs
    · exact Or.inl ((List.prefix_append ['u', 'r', 'l', '('] _).trans htext)
    · exact Or.inr ((List.prefix_append ['u', 'r', 'i', '('] _).trans htext)

/-- A function is not called like a scheme. -/
theorem text_ne_of_kind_eq_function {t : Tokenizer Cursor} (hi : t.ClosesAhead) {token : Token}
    (hmem : token ∈ t.tokens) (hk : token.kind = .function) (scheme : List Char)
    (hs : Lexeme.isScheme scheme = true) : token.text.toList ≠ scheme ++ ['('] := by
  intro htext
  have hshape := (run_rest t).shape hi token hmem
  rw [hk, htext] at hshape
  generalize hchars : scheme ++ ['('] = chars at hshape
  generalize token.payload = payload at hshape
  cases hshape with
  | function _ hword =>
    obtain rfl := List.append_cancel_right hchars
    rw [hs] at hword
    cases hword

/-- **A quote ahead** is the beginning of a string, which ends as its parts do. -/
theorem next?_of_quote {t : Tokenizer Cursor} (hc : t.closing = false) {q : Char}
    (hq : isQuote q = true) {cs value close rest : List Char}
    (parts : StringParts q cs value close rest) (hcs : t.source.ahead = q :: cs) :
    ∃ token t', Id.run t.next? = some (token, t') ∧ token.kind = .string ∧
      token.payload = .text (String.ofList value) ∧
      token.text.toList = q :: (value ++ close) ∧ t'.source.ahead = rest := by
  obtain ⟨_, _, _, scanned, hlen, hclosed⟩ := exists_stringParts q cs
  obtain ⟨rfl, rfl, rfl⟩ := parts.unique scanned
  have hlead : Lexeme.leading t.config.options q cs = Lexeme.quoted q cs := by
    simp only [isQuote, Bool.or_eq_true, beq_iff_eq] at hq
    obtain rfl | rfl := hq
    all_goals rfl
  have hlength : (Lexeme.quoted q cs).length = (q :: (value ++ close)).length := by
    rw [List.length_cons, List.length_append, hclosed, Nat.add_comm]
    rfl
  have hsplit : q :: cs = q :: (value ++ close) ++ rest := by
    rw [List.cons_append, List.append_assoc, ← parts.eq_append]
  refine ⟨_, _, next?_of_cons hcs hc, ?_, ?_, ?_, ?_⟩
  · rw [hlead]
    rfl
  · have hcut := Span.cut_behind [q] cs value.length
    rw [parts.eq_append, List.take_left, ← parts.eq_append, hlen] at hcut
    rw [hlead, token_leading hcs hlead]
    exact congrArg Payload.text hcut
  · rw [hlead, token_leading hcs hlead, String.toList_ofList, hlength, hsplit, List.take_left]
  · rw [hlead, ahead_after, hcs, hlength, hsplit, List.drop_left]

/-- **A string ends at its first stop.**  Behind an opening quote the value is what comes before the
first quote or end of the line that is not escaped, or everything if there is none; the quote is
consumed if it is that stop, and an end of the line never is.  This is so in a string, which ends
there, and in a resource whose value is quoted, which goes on behind it. -/
theorem strings_end_at_first_stop {q : Char} (hq : isQuote q = true) (cs : List Char) :
    ∃ value close rest, StringParts q cs value close rest ∧
      (∀ c, cs[value.length]? = some c → isLineEnd c = true → rest.head? = some c) ∧
      (∀ t : Tokenizer Cursor, t.closing = false → t.source.ahead = q :: cs →
        ∃ token t', Id.run t.next? = some (token, t') ∧ token.kind = .string ∧
          token.payload = .text (String.ofList value) ∧
          token.text.toList = q :: (value ++ close) ∧ t'.source.ahead = rest) ∧
      ∀ (t : Tokenizer Cursor) (scheme blank : List Char), t.closing = false →
        scheme = ['u', 'r', 'l'] ∨ scheme = ['u', 'r', 'i'] →
        (∀ c ∈ blank, isWhitespace c = true) →
        t.source.ahead = scheme ++ '(' :: (blank ++ q :: cs) →
        ∃ token t' behind, Id.run t.next? = some (token, t') ∧ token.kind = .uri ∧
          token.payload = .uri (String.ofList scheme) (String.ofList value) ∧
          token.text.toList = scheme ++ '(' :: (blank ++ (q :: (value ++ close) ++ behind)) ∧
          ResourceEnd behind t'.source.ahead ∧ rest = behind ++ t'.source.ahead := by
  obtain ⟨value, close, rest, parts, -, -⟩ := exists_stringParts q cs
  refine ⟨value, close, rest, parts,
    fun c => parts.head?_rest_of_isLineEnd (not_isLineEnd_of_isQuote hq),
    fun t hc => next?_of_quote hc hq parts, ?_⟩
  · intro t scheme blank hc hs hblank hcs
    obtain ⟨token, t', _, text, value', behind, hnext, hk, hparts, htext, hpayload⟩ :=
      next?_of_scheme hc hs hcs
    obtain ⟨rfl, close', rfl, hstring⟩ := hparts.of_quote hq hblank
    obtain ⟨rfl, rfl, rfl⟩ := parts.unique hstring
    exact ⟨token, t', behind, hnext, hk, hpayload, htext, hparts.behind_ends, rfl⟩

/-- Of two quotes in a resource the first is escaped, with one backslash before it, and the second
is not, with two.  Behind it white space is consumed, but no parenthesis. -/
theorem strings_end_at_first_stop_of_backslashes :
    isQuote '"' = true ∧
    ∃ token t', Id.run (ofText ['u', 'r', 'l', '(', ' ', '"', '\\', '"', '\\', '\\', '"', ' ',
        'x']).next? = some (token, t') ∧
      token.kind = .uri ∧ token.payload = .uri "url" "\\\"\\\\" ∧ t'.source.ahead = ['x'] := by
  refine ⟨rfl, ?_⟩
  obtain ⟨_, _, _, -, -, -, huri⟩ :=
    strings_end_at_first_stop (show isQuote '"' = true from rfl)
      ['\\', '"', '\\', '\\', '"', ' ', 'x']
  obtain ⟨token, t', _, hnext, hk, -⟩ := huri
    (ofText ['u', 'r', 'l', '(', ' ', '"', '\\', '"', '\\', '\\', '"', ' ', 'x'])
    ['u', 'r', 'l'] [' '] rfl (Or.inl rfl) (List.forall_mem_singleton.mpr rfl) rfl
  obtain ⟨rfl, rfl⟩ := Prod.mk.inj (Option.some.inj hnext)
  exact ⟨_, _, hnext, hk, rfl, rfl⟩

/-- **How far a resource reaches.**  Wherever a token begins, it is a resource exactly if `url(` or
`uri(` stands there.  Then its text is that, white space, the value, white space and a closing
parenthesis, each as far as it goes in what follows, and nothing more.  A value in quotes ends like
a string, and any other before white space or a closing parenthesis.  No function is called `url` or
`uri`. -/
theorem resource_extent (t : Tokenizer Cursor) (hc : t.closing = false) :
    ((∃ token t', Id.run t.next? = some (token, t') ∧ token.kind = .uri) ↔
      ['u', 'r', 'l', '('] <+: t.source.ahead ∨ ['u', 'r', 'i', '('] <+: t.source.ahead) ∧
    (∀ scheme cs, scheme = ['u', 'r', 'l'] ∨ scheme = ['u', 'r', 'i'] →
      t.source.ahead = scheme ++ '(' :: cs →
      ∃ token t' blank text value behind, Id.run t.next? = some (token, t') ∧
        token.kind = .uri ∧ ResourceParts cs blank text value behind t'.source.ahead ∧
        token.text.toList = scheme ++ '(' :: (blank ++ (text ++ behind)) ∧
        token.payload = .uri (String.ofList scheme) (String.ofList value)) ∧
    ∀ token ∈ t.tokens, token.kind = .function → token.text ≠ "url(" ∧ token.text ≠ "uri(" := by
  have hi : t.ClosesAhead := fun h => Bool.noConfusion (hc.symm.trans h)
  refine ⟨⟨?_, ?_⟩, fun scheme cs => next?_of_scheme hc, fun token hmem hk => ?_⟩
  · rintro ⟨token, t', hnext, hk⟩
    obtain ⟨lx, hlx, rfl, rfl⟩ := next?_eq_some_iff.mp hnext
    exact scheme_of_kind_eq_uri hi hlx hk
  · intro hprefix
    have hscheme : ∃ scheme cs, (scheme = ['u', 'r', 'l'] ∨ scheme = ['u', 'r', 'i']) ∧
        t.source.ahead = scheme ++ '(' :: cs := by
      obtain ⟨cs, hcs⟩ | ⟨cs, hcs⟩ := hprefix
      · exact ⟨_, cs, Or.inl rfl, hcs.symm⟩
      · exact ⟨_, cs, Or.inr rfl, hcs.symm⟩
    obtain ⟨scheme, cs, hs, hcs⟩ := hscheme
    obtain ⟨token, t', _, _, _, _, hnext, hk, -⟩ := next?_of_scheme hc hs hcs
    exact ⟨token, t', hnext, hk⟩
  · have hnot := text_ne_of_kind_eq_function hi hmem hk
    constructor
    · exact fun htext => hnot ['u', 'r', 'l'] rfl (congrArg String.toList htext)
    · exact fun htext => hnot ['u', 'r', 'i'] rfl (congrArg String.toList htext)

/-- A quoted value that stops at the end of its line: the white space behind it takes the line feed,
and then the parenthesis closes the resource. -/
theorem resource_extent_of_line_end :
    ∃ token t', Id.run (ofText ['u', 'r', 'i', '(', '"', 'a', '\n', ')', ')']).next? =
        some (token, t') ∧
      token.kind = .uri ∧ token.text = "uri(\"a\n)" ∧ token.payload = .uri "uri" "a" ∧
      t'.source.ahead = [')'] := by
  obtain ⟨-, hparts, -⟩ :=
    resource_extent (ofText ['u', 'r', 'i', '(', '"', 'a', '\n', ')', ')']) rfl
  obtain ⟨token, t', _, _, _, _, hnext, hk, -⟩ :=
    hparts ['u', 'r', 'i'] ['"', 'a', '\n', ')', ')'] (Or.inr rfl) rfl
  obtain ⟨rfl, rfl⟩ := Prod.mk.inj (Option.some.inj hnext)
  exact ⟨_, _, hnext, hk, rfl, rfl, rfl⟩

end Tokenizer

end StyleLex
