import StyleLex.Lexeme.Lemmas

/-!
# Proofs/Rule — the rules of the lexer, one by one

`Rule o c cs lx` says that the character `c`, standing before `cs`, begins the measured token `lx`,
and by which rule it does.  `rule_leading` is the inversion: what `leading` measures comes from one
of the rules.  A fact about all tokens is then a case for each rule, and nobody takes `leading`
apart again.

Three such facts follow.  The pieces of a payload lie inside the token (`Rule.piece_le`), a comment
comes from one of the two comment rules (`Rule.comment_cases`), and a token that announces a `*/`
stands before one (`Rule.close_of_opensComment`).
-/

namespace StyleLex

namespace Payload

variable {α β : Type}

/-- The pieces of text of a payload, from left to right. -/
def pieces : Payload α → List α
  | none | number _ => []
  | dimension _ unit => [unit]
  | text value => [value]
  | uri scheme value => [scheme, value]

/-- A payload only depends on what becomes of its pieces. -/
theorem map_congr {f g : α → β} {p : Payload α} (h : ∀ a ∈ p.pieces, f a = g a) :
    p.map f = p.map g := by
  cases p with
  | none | number => rfl
  | dimension value unit => exact congrArg (dimension value) (h unit (List.mem_singleton.mpr rfl))
  | text value => exact congrArg text (h value (List.mem_singleton.mpr rfl))
  | uri scheme value =>
    have hs := h scheme (List.mem_cons_self ..)
    have hv := h value (List.mem_cons_of_mem _ (List.mem_singleton.mpr rfl))
    rw [map, map, hs, hv]

end Payload

namespace Lexeme

open Chars

/-! ## The rules -/

/-- **The rules of the lexer.**  An operator is what remains when no other rule applies. -/
inductive Rule (o : Options) : (c : Char) → (cs : List Char) → Lexeme → Prop where
  | whitespace {c : Char} {cs : List Char} (hc : isWhitespace c = true) :
      Rule o c cs
        { kind := .whitespace, length := 1 + Extent.whitespace cs, release := .consuming }
  | numeric {c : Char} {cs : List Char} (hc : isDigit c = true) :
      Rule o c cs (numeric false (c :: cs))
  | delimiter {c : Char} {cs : List Char} (hc : isDelimiter c = true) : Rule o c cs delimiter
  | unicodeRange {cs : List Char} {n : Nat} (hn : Extent.hexDigits cs = n + 1) :
      Rule o 'u' ('+' :: cs)
        { kind := .unicodeRange
          length := 2 + (n + 1) + rangeEnd (cs.drop (n + 1))
          release := .complete }
  | named {c : Char} {cs : List Char} (hw : isWhitespace c = false) (hc : isNameStart c = true)
      (hu : unicodeRange? (c :: cs) = none) : Rule o c cs (named (c :: cs))
  | quoted {c : Char} {cs : List Char} (hc : isQuote c = true) : Rule o c cs (quoted c cs)
  | lineComment (cs : List Char) : Rule o '/' ('/' :: cs) (lineComment cs)
  | blockComment (cs : List Char) : Rule o '/' ('*' :: cs) (blockComment o cs)
  | atIdentifier {cs : List Char} {n : Nat} (hn : Extent.identifier cs = n + 1) :
      Rule o '@' cs { kind := .atIdentifier, length := 1 + (n + 1), release := .consuming }
  | hashName {cs : List Char} {n : Nat} (hn : Extent.name cs = n + 1) :
      Rule o '#' cs { kind := .hashName, length := 1 + (n + 1), release := .consuming }
  | bracedVariable {cs : List Char} {n : Nat} (hn : Extent.run (· != '}') cs = n) :
      Rule o '$' ('{' :: cs)
        { kind := .variableName
          length := 2 + n + if (cs.drop n).isEmpty then 0 else 1
          payload := .text ⟨2, 2 + n⟩
          release := .consuming }
  | plainVariable {cs : List Char} {n : Nat} (hn : Extent.letters cs = n + 1) :
      Rule o '$' cs
        { kind := .variableName
          length := 1 + (n + 1)
          payload := .text ⟨1, 1 + (n + 1)⟩
          release := .consuming }
  | cdataClose {cs : List Char} (hcs : cs.take 2 = ['-', '>']) :
      Rule o '-' cs { kind := .cdataClose, length := 3, release := .consuming }
  | negative {c : Char} {cs : List Char} (hc : isDigit c = true) :
      Rule o '-' (c :: cs) (Lexeme.numeric true (c :: cs))
  | dashed {cs : List Char} {n : Nat} (hn : Extent.name cs = n + 1) :
      Rule o '-' cs { kind := .identifier, length := 1 + (n + 1), release := .consuming }
  | cdataOpen {cs : List Char} (hcs : cs.take 3 = ['!', '-', '-']) :
      Rule o '<' cs { kind := .cdataOpen, length := 4, release := .consuming }
  | matchOperator {c : Char} {cs : List Char} (hc : c = '~' ∨ c = '|') :
      Rule o c ('=' :: cs) (operator 2)
  | operator {c : Char} {cs : List Char} (hc : attempt? o c cs = none) :
      Rule o c cs (operator 1)

/-- **A character that can begin a name** begins a range of code points or what a name begins. -/
theorem rule_word {o : Options} {c : Char} {cs : List Char} (hw : isWhitespace c = false)
    (hc : isNameStart c = true) : Rule o c cs (word (c :: cs)) := by
  unfold word
  cases hu : unicodeRange? (c :: cs) with
  | none => exact .named hw hc hu
  | some lx =>
    unfold unicodeRange? at hu
    split at hu
    · next ds heq =>
      obtain ⟨rfl, rfl⟩ := List.cons.inj heq
      split at hu
      · cases hu
      · next n hn =>
        obtain rfl := Option.some.inj hu
        exact .unicodeRange hn
    · cases hu

theorem rule_comment? {o : Options} {cs : List Char} {lx : Lexeme} (h : comment? o cs = some lx) :
    Rule o '/' cs lx := by
  unfold comment? at h
  split at h
  · obtain rfl := Option.some.inj h
    exact .lineComment _
  · obtain rfl := Option.some.inj h
    exact .blockComment _
  · cases h

theorem rule_variableName? {o : Options} {cs : List Char} {lx : Lexeme}
    (h : variableName? cs = some lx) : Rule o '$' cs lx := by
  unfold variableName? at h
  split at h
  · obtain rfl := Option.some.inj h
    exact .bracedVariable rfl
  · obtain ⟨n, hn, rfl⟩ := exists_of_counted? h
    rw [hn]
    exact .plainVariable hn

/-- A `-` begins the marker, a number or an identifier, each by a rule of its own. -/
theorem rule_minus? {o : Options} {cs : List Char} {lx : Lexeme} (h : minus? cs = some lx) :
    Rule o '-' cs lx := by
  unfold minus? at h
  split at h
  · next hcs =>
    obtain rfl := Option.some.inj h
    exact .cdataClose hcs
  split at h
  · next hd =>
    obtain rfl := Option.some.inj h
    cases cs with
    | nil => simp at hd
    | cons c cs => exact .negative (by simpa using hd)
  · obtain ⟨n, hn, rfl⟩ := exists_of_counted? h
    exact .dashed hn

theorem rule_matchOperator {o : Options} {c : Char} {cs : List Char} {lx : Lexeme}
    (hc : c = '~' ∨ c = '|')
    (h : (if cs.head? = some '=' then some (operator 2) else none) = some lx) :
    Rule o c cs lx := by
  split at h
  · next hd =>
    cases cs with
    | nil => cases hd
    | cons d cs =>
      obtain rfl := Option.some.inj hd
      obtain rfl := Option.some.inj h
      exact .matchOperator hc
  · cases h

/-- **A mark** begins what its rule says. -/
theorem rule_marked? {o : Options} {c : Char} {cs : List Char} {lx : Lexeme}
    (h : marked? o c cs = some lx) : Rule o c cs lx := by
  unfold marked? at h
  split at h
  · exact rule_comment? h
  · obtain ⟨n, hn, rfl⟩ := exists_of_counted? h
    exact .atIdentifier hn
  · obtain ⟨n, hn, rfl⟩ := exists_of_counted? h
    exact .hashName hn
  · exact rule_variableName? h
  · exact rule_minus? h
  · unfold cdataOpen? at h
    split at h
    · next hcs =>
      obtain rfl := Option.some.inj h
      exact .cdataOpen hcs
    · cases h
  · exact rule_matchOperator (Or.inl rfl) h
  · exact rule_matchOperator (Or.inr rfl) h
  · cases h

/-- **Whatever is begun** is begun by a rule. -/
theorem rule_attempt? {o : Options} {c : Char} {cs : List Char} {lx : Lexeme}
    (h : attempt? o c cs = some lx) : Rule o c cs lx := by
  unfold attempt? at h
  split at h
  · next hc =>
    obtain rfl := Option.some.inj h
    exact .whitespace hc
  next hw =>
  split at h
  · next hc =>
    obtain rfl := Option.some.inj h
    exact .numeric hc
  split at h
  · next hc =>
    obtain rfl := Option.some.inj h
    exact .delimiter hc
  split at h
  · next hc =>
    obtain rfl := Option.some.inj h
    exact rule_word (by simpa using hw) hc
  split at h
  · next hc =>
    obtain rfl := Option.some.inj h
    exact .quoted hc
  exact rule_marked? h

/-- A character that begins nothing belongs to none of the classes that begin a token. -/
theorem of_attempt?_eq_none {o : Options} {c : Char} {cs : List Char}
    (h : attempt? o c cs = none) :
    isWhitespace c = false ∧ isDigit c = false ∧ isDelimiter c = false ∧ isNameStart c = false ∧
      isQuote c = false := by
  unfold attempt? at h
  split at h
  · cases h
  next hw =>
  split at h
  · cases h
  next hd =>
  split at h
  · cases h
  next hdelim =>
  split at h
  · cases h
  next hn =>
  split at h
  · cases h
  next hq =>
  rw [Bool.not_eq_true] at hw hd hdelim hn hq
  exact ⟨hw, hd, hdelim, hn, hq⟩

/-- **Every token comes from a rule.** -/
theorem rule_leading (o : Options) (c : Char) (cs : List Char) : Rule o c cs (leading o c cs) := by
  unfold leading
  cases h : attempt? o c cs with
  | none => exact .operator h
  | some lx => exact rule_attempt? h

/-! ## The pieces of a payload lie in the token -/

/-- The place of a resource is inside what the resource takes up. -/
theorem resource_span (cs : List Char) :
    (resource cs).1.start ≤ (resource cs).1.stop ∧ (resource cs).1.stop ≤ (resource cs).2 := by
  cases cs with
  | nil => exact ⟨Nat.le_refl _, Nat.le_refl _⟩
  | cons c cs =>
    have hq := Extent.quoted_le_quotedClosed c cs
    rw [resource]
    split
    · exact ⟨Nat.le_add_right _ _, Nat.add_le_add_left hq 1⟩
    · exact ⟨Nat.zero_le _, Nat.le_refl _⟩

theorem uri_piece_le {n : Nat} {cs : List Char} {s : Span} (hs : s ∈ (uri n cs).payload.pieces) :
    s.start ≤ s.stop ∧ s.stop ≤ (uri n cs).length := by
  have hspan := resource_span (cs.drop (Extent.whitespace cs))
  simp only [uri, Payload.pieces, List.mem_cons, List.not_mem_nil, or_false] at hs ⊢
  rcases hs with rfl | rfl
  · simp only
    omega
  · simp only [Span.shift]
    omega

theorem named_piece_le {cs : List Char} {s : Span} (hs : s ∈ (named cs).payload.pieces) :
    s.start ≤ s.stop ∧ s.stop ≤ (named cs).length := by
  simp only [named] at hs ⊢
  split at hs
  · split at hs
    · next h1 h2 =>
      rw [if_pos h1, if_pos h2]
      exact uri_piece_le hs
    · cases hs
  · cases hs

/-- The unit of a dimension ends with the token. -/
theorem numeric_piece_le {negative : Bool} {cs : List Char} {s : Span}
    (hs : s ∈ (numeric negative cs).payload.pieces) :
    s.start ≤ s.stop ∧ s.stop ≤ (numeric negative cs).length := by
  simp only [numeric] at hs ⊢
  split at hs
  · cases hs
  · next hp =>
    split at hs
    · cases hs
    · next hu =>
      rw [if_neg hp, if_neg hu]
      obtain rfl := List.mem_singleton.mp hs
      exact ⟨Nat.le_add_right _ _, Nat.le_refl _⟩

/-- A block comment that may be split ends before its `*/`. -/
theorem blockComment_of_markers {o : Options} (ho : o.commentMarkers = true) (cs : List Char) :
    blockComment o cs =
      { kind := .comment
        length := 2 + Extent.blockComment cs
        payload := .text ⟨2, 2 + Extent.blockComment cs⟩
        opensComment := Extent.blockComment cs < cs.length } := by
  rw [blockComment, if_pos ho]

/-- A block comment that stays whole ends after its `*/`, if it has one. -/
theorem blockComment_of_whole {o : Options} (ho : o.commentMarkers = false) (cs : List Char) :
    blockComment o cs =
      { kind := .comment
        length := 2 + Extent.blockComment cs + if Extent.blockComment cs < cs.length then 2 else 0
        payload := .text ⟨2, 2 + Extent.blockComment cs⟩
        release := .complete } := by
  rw [blockComment, if_neg (by rw [ho]; exact Bool.false_ne_true)]

/-- **The pieces of a payload lie in the token.** -/
theorem Rule.piece_le {o : Options} {c : Char} {cs : List Char} {lx : Lexeme}
    (h : Rule o c cs lx) {s : Span} (hs : s ∈ lx.payload.pieces) :
    s.start ≤ s.stop ∧ s.stop ≤ lx.length := by
  cases h with
  | numeric | negative => exact numeric_piece_le hs
  | named => exact named_piece_le hs
  | quoted =>
    have hq := Extent.quoted_le_quotedClosed c cs
    obtain rfl := List.mem_singleton.mp hs
    exact ⟨Nat.le_add_right _ _, Nat.add_le_add_left hq 1⟩
  | lineComment =>
    obtain rfl := List.mem_singleton.mp hs
    exact ⟨Nat.le_add_right _ _, Nat.le_refl _⟩
  | blockComment cs =>
    cases ho : o.commentMarkers with
    | true =>
      rw [blockComment_of_markers ho] at hs ⊢
      obtain rfl := List.mem_singleton.mp hs
      exact ⟨Nat.le_add_right _ _, Nat.le_refl _⟩
    | false =>
      rw [blockComment_of_whole ho] at hs ⊢
      obtain rfl := List.mem_singleton.mp hs
      exact ⟨Nat.le_add_right _ _, Nat.le_add_right _ _⟩
  | bracedVariable =>
    obtain rfl := List.mem_singleton.mp hs
    exact ⟨Nat.le_add_right _ _, Nat.le_add_right _ _⟩
  | plainVariable =>
    obtain rfl := List.mem_singleton.mp hs
    exact ⟨Nat.le_add_right _ _, Nat.le_refl _⟩
  | _ => cases hs

/-! ## Comments -/

/-- A numeral begins a token of one of three kinds. -/
theorem numeric_kind_ne {k : Kind} (hk : k ∉ [Kind.number, .percentage, .dimension])
    (negative : Bool) (cs : List Char) : (numeric negative cs).kind ≠ k := by
  rintro rfl
  apply hk
  simp only [numeric]
  split
  · simp
  · split <;> simp

/-- A name that is not marked begins a token of one of three kinds. -/
theorem named_kind_ne {k : Kind} (hk : k ∉ [Kind.identifier, .function, .uri]) (cs : List Char) :
    (named cs).kind ≠ k := by
  rintro rfl
  apply hk
  simp only [named]
  split
  · split <;> simp [uri]
  · simp

theorem kind_blockComment (o : Options) (cs : List Char) : (blockComment o cs).kind = .comment := by
  rw [blockComment]
  split <;> rfl

theorem payload_blockComment (o : Options) (cs : List Char) :
    (blockComment o cs).payload = .text ⟨2, 2 + Extent.blockComment cs⟩ := by
  rw [blockComment]
  split <;> rfl

/-- **A comment comes from one of the two comment rules.** -/
theorem Rule.comment_cases {o : Options} {c : Char} {cs : List Char} {lx : Lexeme}
    (h : Rule o c cs lx) (hk : lx.kind = .comment) :
    c = '/' ∧ ((∃ ds, cs = '/' :: ds ∧ lx = Lexeme.lineComment ds) ∨
      ∃ ds, cs = '*' :: ds ∧ lx = Lexeme.blockComment o ds) := by
  cases h with
  | lineComment => exact ⟨rfl, Or.inl ⟨_, rfl, rfl⟩⟩
  | blockComment => exact ⟨rfl, Or.inr ⟨_, rfl, rfl⟩⟩
  | numeric | negative => exact absurd hk (numeric_kind_ne (by decide) _ _)
  | named => exact absurd hk (named_kind_ne (by decide) _)
  | _ => cases hk

theorem numeric_opensComment (negative : Bool) (cs : List Char) :
    (numeric negative cs).opensComment = false := by
  simp only [numeric]
  split
  · rfl
  · split <;> rfl

theorem named_opensComment (cs : List Char) : (named cs).opensComment = false := by
  simp only [named]
  split
  · split <;> rfl
  · rfl

/-- What stands behind the inside of a closed comment. -/
theorem drop_blockComment : ∀ {cs : List Char}, Extent.blockComment cs < cs.length →
    ∃ ds, cs.drop (Extent.blockComment cs) = '*' :: '/' :: ds
  | [], h => absurd h (Nat.lt_irrefl 0)
  | c :: cs, h => by
      rw [Extent.blockComment] at h ⊢
      split
      · next hc =>
        obtain ⟨rfl, hd⟩ := hc
        obtain ⟨ds, rfl⟩ := List.head?_eq_some_iff.mp hd
        exact ⟨ds, rfl⟩
      · next hc =>
        rw [if_neg hc, List.length_cons] at h
        rw [Nat.add_comm, List.drop_succ_cons]
        exact drop_blockComment (by omega)

/-- The inside of a closed comment with its `*/`. -/
theorem take_blockComment_add_two {cs : List Char} (h : Extent.blockComment cs < cs.length) :
    cs.take (Extent.blockComment cs + 2) = cs.take (Extent.blockComment cs) ++ ['*', '/'] := by
  obtain ⟨ds, hds⟩ := drop_blockComment h
  rw [List.take_add, hds]
  rfl

/-- **Only a block comment that is split announces a `*/`.** -/
theorem Rule.opensComment_cases {o : Options} {c : Char} {cs : List Char} {lx : Lexeme}
    (h : Rule o c cs lx) (ho : lx.opensComment = true) :
    o.commentMarkers = true ∧ ∃ ds, cs = '*' :: ds ∧ lx = Lexeme.blockComment o ds ∧
      Extent.blockComment ds < ds.length := by
  cases h with
  | blockComment ds =>
    cases hm : o.commentMarkers with
    | true =>
      rw [blockComment_of_markers hm] at ho
      exact ⟨rfl, ds, rfl, rfl, of_decide_eq_true ho⟩
    | false =>
      rw [blockComment_of_whole hm] at ho
      cases ho
  | numeric | negative =>
    rw [numeric_opensComment] at ho
    cases ho
  | named =>
    rw [named_opensComment] at ho
    cases ho
  | _ => cases ho

/-- **A token that announces a `*/` stands before one.** -/
theorem Rule.close_of_opensComment {o : Options} {c : Char} {cs : List Char} {lx : Lexeme}
    (h : Rule o c cs lx) (ho : lx.opensComment = true) :
    ∃ ds, (c :: cs).drop lx.length = '*' :: '/' :: ds := by
  obtain ⟨hm, ds, rfl, rfl, hlt⟩ := h.opensComment_cases ho
  rw [blockComment_of_markers hm, Nat.add_comm, List.drop_succ_cons, List.drop_succ_cons]
  exact drop_blockComment hlt

end Lexeme

end StyleLex
