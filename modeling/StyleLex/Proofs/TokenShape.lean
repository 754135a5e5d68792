import StyleLex.Proofs.Grammar
import StyleLex.Proofs.Run

/-!
# Proofs/TokenShape — the kind, the text and the payload of a token agree

`Shape kind text payload` says how the text of a token of that kind is made up, and which pieces of
it the payload holds.  Every rule of the lexer gives a token of its shape (`Rule.shaped`): the text
and the pieces are cut out of the characters ahead at places that were counted apart from each
other, and the scanners count what is of their form (`Proofs/Grammar`).  So every token has its
shape, in every window and with every option (`tokens_shape`).

No shape has the kind `invalid` or `color`.
-/

namespace StyleLex

open Chars Grammar

/-! ## Shapes -/

/-- **How the kind, the text and the payload of a token agree.** -/
inductive Shape : Kind → (text : List Char) → Payload String → Prop where
  | whitespace {text : List Char} (ne : text ≠ [])
      (all : ∀ c ∈ text, isWhitespace c = true) : Shape .whitespace text .none
  | delimiter {c : Char} (hc : c ∈ delimiters) : Shape .delimiter [c] .none
  | operator {c : Char} (hw : isWhitespace c = false) (hd : isDigit c = false)
      (hdelim : c ∉ delimiters) (hn : isNameStart c = false) (hq : isQuote c = false) :
      Shape .operator [c] .none
  | matchOperator {c : Char} (hc : c = '~' ∨ c = '|') : Shape .operator [c, '='] .none
  | cdataOpen : Shape .cdataOpen ['<', '!', '-', '-'] .none
  | cdataClose : Shape .cdataClose ['-', '-', '>'] .none
  | number {negative : Bool} {n : Numeral} (hn : n.Valid) :
      Shape .number (sign negative ++ n.chars) (.number (n.value negative))
  | percentage {negative : Bool} {n : Numeral} (hn : n.Valid) :
      Shape .percentage (sign negative ++ n.chars ++ ['%']) (.number (n.value negative))
  | dimension {negative : Bool} {n : Numeral} {unit : List Char} (hn : n.Valid) (ne : unit ≠ [])
      (letters : ∀ c ∈ unit, isLetter c = true) :
      Shape .dimension (sign negative ++ n.chars ++ unit)
        (.dimension (n.value negative) (String.ofList unit))
  | string {q : Char} {text value : List Char} (hq : isQuote q = true) (h : Quoted q text value) :
      Shape .string text (.text (String.ofList value))
  | lineComment {value : List Char} (hv : ∀ c ∈ value, isLineEnd c = false) :
      Shape .comment ('/' :: '/' :: value) (.text (String.ofList value))
  | blockComment {value close : List Char} (hv : ¬['*', '/'] <:+: value)
      (hclose : Optional ['*', '/'] close) :
      Shape .comment ('/' :: '*' :: (value ++ close)) (.text (String.ofList value))
  | commentClose : Shape .comment ['*', '/'] .none
  | plainVariable {value : List Char} (ne : value ≠ [])
      (letters : ∀ c ∈ value, isLetter c = true) :
      Shape .variableName ('$' :: value) (.text (String.ofList value))
  | bracedVariable {value close : List Char} (hv : '}' ∉ value) (hclose : Optional ['}'] close) :
      Shape .variableName ('$' :: '{' :: (value ++ close)) (.text (String.ofList value))
  | uri {scheme before text value after close : List Char} (hs : Lexeme.isScheme scheme = true)
      (hbefore : ∀ c ∈ before, isWhitespace c = true) (h : Resource text value)
      (hafter : ∀ c ∈ after, isWhitespace c = true) (hclose : Optional [')'] close) :
      Shape .uri (scheme ++ '(' :: (before ++ (text ++ (after ++ close))))
        (.uri (String.ofList scheme) (String.ofList value))
  | unicodeRange {first rest : List Char} (hfirst : HexCode first)
      (hrest : rest = [] ∨ ∃ last, HexCode last ∧ rest = '-' :: last) :
      Shape .unicodeRange ('u' :: '+' :: (first ++ rest)) .none
  | atIdentifier {text : List Char} (h : Identifier text) : Shape .atIdentifier ('@' :: text) .none
  | hashName {text : List Char} (h : Name text) : Shape .hashName ('#' :: text) .none
  | identifier {text : List Char} (h : Word text) : Shape .identifier text .none
  | dashed {text : List Char} (h : Name text) : Shape .identifier ('-' :: text) .none
  | function {text : List Char} (h : Word text) (hs : Lexeme.isScheme text = false) :
      Shape .function (text ++ ['(']) .none

namespace Lexeme

open Extent

/-- What is measured at the beginning of `cs` has its shape. -/
def Shaped (lx : Lexeme) (cs : List Char) : Prop :=
  Shape lx.kind (cs.take lx.length) (lx.payload.map (Span.cut cs))

theorem take_two_add (c d : Char) (cs : List Char) (k : Nat) :
    (c :: d :: cs).take (2 + k) = c :: d :: cs.take k :=
  @List.take_length_add_append _ [c, d] cs k

/-! ## Numbers -/

/-- A number has the sign, the digits and the unit or `%` of its shape. -/
theorem shaped_numeric (negative : Bool) {c : Char} (hc : isDigit c = true) (cs : List Char) :
    (numeric negative (c :: cs)).Shaped (sign negative ++ c :: cs) := by
  have hvalid := @Numeral.valid_read c cs hc
  have hread := Numeral.chars_read (c :: cs)
  simp only [Shaped, numeric]
  generalize Numeral.read (c :: cs) = r at hvalid hread ⊢
  obtain ⟨n, rest⟩ := r
  have hlen : negative.toNat + n.chars.length = (sign negative ++ n.chars).length := by
    rw [List.length_append, length_sign]
  rw [← hread, ← List.append_assoc, hlen]
  split
  · next hp =>
    obtain ⟨ds, rfl⟩ := List.head?_eq_some_iff.mp hp
    rw [List.take_length_add_append]
    exact .percentage hvalid
  · split
    · rw [List.take_left]
      exact .number hvalid
    · next hu =>
      have hpos := Nat.pos_of_ne_zero hu
      simp only [Payload.map]
      rw [List.take_length_add_append, Span.cut_behind]
      exact .dimension hvalid (take_ne_nil hpos (letters_le rest)) of_mem_take_run

/-! ## Words -/

/-- What is consumed only if it follows is there or is not. -/
theorem optional_take (c : Char) (cs : List Char) :
    Optional [c] (cs.take (if cs.head? = some c then 1 else 0)) := by
  split
  · next h =>
    obtain ⟨ds, rfl⟩ := List.head?_eq_some_iff.mp h
    exact .present
  · exact .absent

/-- A resource is the scheme, the value with white space around it, and `)` if that follows. -/
theorem shaped_uri {scheme : List Char} (hs : isScheme scheme = true) (cs : List Char) :
    (uri scheme.length cs).Shaped (scheme ++ '(' :: cs) := by
  have hopen : (scheme ++ ['(']).length = scheme.length + 1 := List.length_append
  have hscheme : Span.cut (scheme ++ '(' :: cs) ⟨0, scheme.length⟩ = String.ofList scheme := by
    rw [Span.cut, List.drop_zero, Nat.sub_zero, List.take_left]
  have hresource := resource_take_resource (cs.drop (whitespace cs))
  simp only [Shaped, uri, Payload.map]
  rw [hscheme, Span.cut_shift, List.append_cons, ← hopen, List.drop_length_add_append, Span.cut]
  simp only [Nat.add_assoc]
  rw [List.take_length_add_append, List.take_add, List.take_add, List.take_add, ← List.append_cons]
  exact .uri hs of_mem_take_run hresource of_mem_take_run (optional_take ')' _)

/-- **A name gives an identifier, function or resource**, by what follows it. -/
theorem shaped_named {c : Char} {cs : List Char} (hw : isWhitespace c = false)
    (hc : isNameStart c = true) : (named (c :: cs)).Shaped (c :: cs) := by
  have hword := @word_take_name c cs hw hc
  have hle := name_le (c :: cs)
  simp only [named]
  split
  · next hp =>
    obtain ⟨ds, hds⟩ := List.head?_eq_some_iff.mp hp
    have htext : c :: cs = (c :: cs).take (name (c :: cs)) ++ '(' :: ds := by
      rw [← hds, List.take_append_drop]
    split
    · next hs =>
      have := shaped_uri hs ds
      rw [← htext, List.length_take, Nat.min_eq_left hle] at this
      rw [hds]
      exact this
    · next hs =>
      rw [Shaped]
      simp only
      rw [take_succ_of_head?_drop hp]
      exact .function hword (Bool.eq_false_iff.mpr hs)
  · exact .identifier hword

/-- The end of a range of code points. -/
theorem take_rangeEnd (cs : List Char) :
    cs.take (rangeEnd cs) = [] ∨ ∃ last, HexCode last ∧ cs.take (rangeEnd cs) = '-' :: last := by
  unfold rangeEnd
  split
  · next cs =>
    split
    · exact Or.inl rfl
    · next n hn =>
      have hlast := @hexCode_take_hexDigits cs (by omega)
      rw [hn] at hlast
      rw [Nat.add_comm, List.take_succ_cons]
      exact Or.inr ⟨_, hlast, rfl⟩
  · exact Or.inl rfl

theorem shaped_unicodeRange {cs : List Char} {n : Nat} (hn : hexDigits cs = n + 1) :
    Lexeme.Shaped
      { kind := .unicodeRange
        length := 2 + (n + 1) + rangeEnd (cs.drop (n + 1))
        release := .complete } ('u' :: '+' :: cs) := by
  have hfirst := @hexCode_take_hexDigits cs (by omega)
  rw [hn] at hfirst
  simp only [Shaped, Payload.map]
  rw [Nat.add_assoc, take_two_add, List.take_add]
  exact .unicodeRange hfirst (take_rangeEnd _)

/-! ## Strings and variables -/

/-- A string has its quote at both ends, or only in front if it is not closed. -/
theorem shaped_quoted {q : Char} (hq : isQuote q = true) (cs : List Char) :
    (quoted q cs).Shaped (q :: cs) := by
  have hcut := Span.cut_behind [q] cs (Extent.quoted q cs)
  have hshape := Shape.string hq (quoted_take_quotedClosed q cs)
  rw [← hcut, ← List.take_succ_cons, Nat.add_comm] at hshape
  exact hshape

/-- The brace that closes the name of a variable is missing at the end only. -/
theorem optional_take_brace {cs : List Char} {n : Nat} (hn : run (· != '}') cs = n) :
    Optional ['}'] ((cs.drop n).take (if (cs.drop n).isEmpty then 0 else 1)) := by
  have hhead := List.head?_dropWhile_not (· != '}') cs
  rw [dropWhile_eq_drop_run, hn] at hhead
  cases hdrop : cs.drop n with
  | nil => exact .absent
  | cons c ds =>
    rw [hdrop] at hhead
    obtain rfl : c = '}' := by simpa using hhead
    exact .present

theorem shaped_bracedVariable {cs : List Char} {n : Nat} (hn : run (· != '}') cs = n) :
    Lexeme.Shaped
      { kind := .variableName
        length := 2 + n + if (cs.drop n).isEmpty then 0 else 1
        payload := .text ⟨2, 2 + n⟩
        release := .consuming } ('$' :: '{' :: cs) := by
  have hcut := Span.cut_behind ['$', '{'] cs n
  have hv : '}' ∉ cs.take n := fun hmem => by
    rw [← hn] at hmem
    simpa using of_mem_take_run _ hmem
  have hshape := Shape.bracedVariable hv (optional_take_brace hn)
  rw [← hcut, ← List.take_add, ← take_two_add, ← Nat.add_assoc] at hshape
  exact hshape

theorem shaped_plainVariable {cs : List Char} {n : Nat} (hn : letters cs = n + 1) :
    Lexeme.Shaped
      { kind := .variableName
        length := 1 + (n + 1)
        payload := .text ⟨1, 1 + (n + 1)⟩
        release := .consuming } ('$' :: cs) := by
  have hcut := Span.cut_behind ['$'] cs (n + 1)
  have hne := @take_ne_nil cs (n + 1) (Nat.succ_pos n) (hn ▸ letters_le cs)
  have hshape := @Shape.plainVariable (cs.take (n + 1)) hne (hn ▸ of_mem_take_run)
  rw [← hcut, ← List.take_succ_cons, Nat.add_comm] at hshape
  exact hshape

/-! ## Comments -/

theorem shaped_lineComment (cs : List Char) : (lineComment cs).Shaped ('/' :: '/' :: cs) := by
  have hcut := Span.cut_behind ['/', '/'] cs (line cs)
  have hv : ∀ c ∈ cs.take (line cs), isLineEnd c = false := fun c hc => by
    simpa using of_mem_take_run c hc
  have hshape := Shape.lineComment hv
  rw [← hcut, ← take_two_add] at hshape
  exact hshape

/-- A block comment has its `*/`, unless it is split or the text ends before. -/
theorem shaped_blockComment (o : Options) (cs : List Char) :
    (blockComment o cs).Shaped ('/' :: '*' :: cs) := by
  have hin := not_infix_take_blockComment cs
  have hcut := Span.cut_behind ['/', '*'] cs (Extent.blockComment cs)
  have hopen := Shape.blockComment hin .absent
  rw [List.append_nil, ← hcut, ← take_two_add] at hopen
  cases ho : o.commentMarkers with
  | true =>
    rw [blockComment_of_markers ho]
    exact hopen
  | false =>
    rw [blockComment_of_whole ho]
    split
    · next hlt =>
      have hclosed := Shape.blockComment hin .present
      rwa [← take_blockComment_add_two hlt, ← hcut, ← take_two_add] at hclosed
    · exact hopen

/-! ## The rules -/

/-- **Every rule gives a token of its shape.** -/
theorem Rule.shaped {o : Options} {c : Char} {cs : List Char} {lx : Lexeme} (h : Rule o c cs lx) :
    lx.Shaped (c :: cs) := by
  cases h with
  | whitespace hc =>
    rw [Shaped, Nat.add_comm, List.take_succ_cons]
    refine .whitespace (List.cons_ne_nil _ _) fun d hd => ?_
    rcases List.mem_cons.mp hd with rfl | hd
    · exact hc
    · exact of_mem_take_run d hd
  | numeric hc => exact shaped_numeric false hc cs
  | delimiter hc => exact .delimiter (List.contains_iff_mem.mp hc)
  | unicodeRange hn => exact shaped_unicodeRange hn
  | named hw hc => exact shaped_named hw hc
  | quoted hc => exact shaped_quoted hc cs
  | lineComment cs => exact shaped_lineComment cs
  | blockComment cs => exact shaped_blockComment o cs
  | atIdentifier hn =>
    rw [Shaped, ← hn, Nat.add_comm, List.take_succ_cons]
    exact .atIdentifier (identifier_take_identifier (by omega))
  | hashName hn =>
    rw [Shaped, ← hn, Nat.add_comm, List.take_succ_cons]
    exact .hashName (name_take_name (by omega))
  | bracedVariable hn => exact shaped_bracedVariable hn
  | plainVariable hn => exact shaped_plainVariable hn
  | cdataClose hcs =>
    rw [Shaped, List.take_succ_cons, hcs]
    exact .cdataClose
  | negative hc => exact shaped_numeric true hc _
  | dashed hn =>
    rw [Shaped, ← hn, Nat.add_comm, List.take_succ_cons]
    exact .dashed (name_take_name (by omega))
  | cdataOpen hcs =>
    rw [Shaped, List.take_succ_cons, hcs]
    exact .cdataOpen
  | matchOperator hc => exact .matchOperator hc
  | operator hc =>
    obtain ⟨hw, hd, hdelim, hn, hq⟩ := of_attempt?_eq_none hc
    exact .operator hw hd (fun hmem => by simp [isDelimiter, hmem] at hdelim) hn hq

end Lexeme

/-! ## Views

What a view finds depends on the kind, and for a comment on whether it is a `*/` alone. -/

/-- **The views of a token find what its kind has.** -/
theorem Shape.isSome_views {token : Token}
    (h : Shape token.kind token.text.toList token.payload) {δ : Type} (lib : DecimalLibrary δ) :
    ((token.number? lib).isSome ↔
      token.kind = .number ∨ token.kind = .percentage ∨ token.kind = .dimension) ∧
    (token.unit?.isSome ↔ token.kind = .dimension) ∧
    (token.value?.isSome ↔
      token.kind = .string ∨ token.kind = .variableName ∨ token.kind = .uri ∨
        (token.kind = .comment ∧ token.text ≠ "*/")) ∧
    (token.scheme?.isSome ↔ token.kind = .uri) := by
  obtain ⟨kind, start, stop, text, location, payload⟩ := token
  have hclose : text = "*/" ↔ text.toList = ['*', '/'] := String.toList_inj.symm
  simp only [ne_eq, hclose] at h ⊢
  generalize text.toList = chars at h ⊢
  cases h <;> simp [Token.number?, Token.reading?, Token.unit?, Token.value?, Token.scheme?]

/-! ## Tokens -/

namespace Tokenizer

theorem shape_token {t : Tokenizer Cursor} {lx : Lexeme} (hi : t.ClosesAhead)
    (h : t.lexeme? = some lx) :
    Shape (t.token lx).kind (t.token lx).text.toList (t.token lx).payload := by
  rw [token_eq (length_le_ahead hi h)]
  simp only [String.toList_ofList]
  obtain ⟨c, cs, hcs, ⟨hc, rfl⟩ | ⟨-, rfl⟩⟩ := lexeme?_cases h
  · obtain ⟨ds, hds⟩ := hi hc
    rw [hds]
    exact .commentClose
  · rw [hcs]
    exact (Lexeme.rule_leading _ c cs).shaped

/-- **Every token of a run has its shape.** -/
theorem Run.shape {t u : Tokenizer Cursor} {tokens : List Token} (h : Run t tokens u)
    (hi : t.ClosesAhead) :
    ∀ token ∈ tokens, Shape token.kind token.text.toList token.payload := by
  induction h with
  | done => exact fun _ h => nomatch h
  | step head _ ih =>
    obtain ⟨lx, hlx, rfl, rfl⟩ := next?_eq_some_iff.mp head
    intro token hmem
    rcases List.mem_cons.mp hmem with rfl | hmem
    · exact shape_token hi hlx
    · exact ih (closesAhead_after hlx) token hmem

/-- **Kind, text and payload agree.**  Every token of every window, with every option, is made up as
its kind says, and its payload holds the pieces of its text that belong there.  So a number is found
in numbers, percentages and dimensions, a unit in dimensions, a scheme in resources, and a value in
strings, variables, resources and all comments but a `*/` of its own. -/
theorem tokens_shape {δ : Type} (lib : DecimalLibrary δ) (text : List Char) (config : Config)
    {t : Tokenizer Cursor} (h : ofConfig? text config = .ok t) :
    ∀ token ∈ t.tokens,
      Shape token.kind token.text.toList token.payload ∧
      ((token.number? lib).isSome ↔
        token.kind = .number ∨ token.kind = .percentage ∨ token.kind = .dimension) ∧
      (token.unit?.isSome ↔ token.kind = .dimension) ∧
      (token.value?.isSome ↔
        token.kind = .string ∨ token.kind = .variableName ∨ token.kind = .uri ∨
          (token.kind = .comment ∧ token.text ≠ "*/")) ∧
      (token.scheme?.isSome ↔ token.kind = .uri) := by
  intro token hmem
  have hshape := (run_rest t).shape (closesAhead_of_ofConfig? h) token hmem
  exact ⟨hshape, hshape.isSome_views lib⟩

/-- A window that ends behind a backslash: the halves of a comment, and a resource in which the
quote, the parenthesis and what the backslash escapes are missing. -/
theorem tokens_shape_of_dangling_escape :
    ∃ t, ofConfig? ['x', '/', '*', 'a', '*', '/', 'u', 'r', 'l', '(', ' ', '"', 'b', '\\', '"']
        { start := 1, stop := some 14, options := ⟨true⟩ } = .ok t ∧
      (t.tokens.map fun token => (token.kind, token.text, token.payload)) =
        [(.comment, "/*a", .text "a"), (.comment, "*/", .none),
          (.uri, "url( \"b\\", .uri "url" "b\\")] ∧
      ∀ token ∈ t.tokens, Shape token.kind token.text.toList token.payload := by
  have hshape :=
    tokens_shape Decimal.library
      ['x', '/', '*', 'a', '*', '/', 'u', 'r', 'l', '(', ' ', '"', 'b', '\\', '"']
      { start := 1, stop := some 14, options := ⟨true⟩ } rfl
  exact ⟨_, rfl, rfl, fun token hmem => (hshape token hmem).1⟩

end Tokenizer

end StyleLex
