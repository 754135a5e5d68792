import StyleLex.Extent.Lemmas
import StyleLex.Lexeme.Scan

/-!
# Lexeme/Lemmas — a measured token lies ahead

The next token has at least one character (`length_pos_of_next?`) and no more than are ahead
(`length_le_of_next?`).  For the `*/` of a split comment the second needs two characters ahead,
which a closed comment leaves (`Extent.blockComment_add_two_le`).
-/

namespace StyleLex

namespace Lexeme

open Chars Extent

/-! ## Numbers -/

/-- A number lies ahead, with its sign, its percent sign or its unit. -/
theorem numeric_length_le (negative : Bool) (cs : List Char) :
    (numeric negative cs).length ≤ negative.toNat + cs.length := by
  have h := congrArg List.length (Numeral.chars_read cs)
  have hu := letters_le (Numeral.read cs).2
  rw [List.length_append] at h
  simp only [numeric]
  split
  · next hp =>
    have : (Numeral.read cs).2.length ≠ 0 := by
      intro h0
      rw [List.eq_nil_of_length_eq_zero h0] at hp
      simp at hp
    simp only
    omega
  · split <;> simp only <;> omega

/-- A numeral that begins with a digit is not empty. -/
theorem numeral_chars_length_pos {c : Char} {cs : List Char} (h : isDigit c = true) :
    0 < (Numeral.read (c :: cs)).1.chars.length := by
  unfold Numeral.read
  split <;> simp [Numeral.chars, h]

/-- **A number has a character**: the digit that it begins with. -/
theorem numeric_length_pos {negative : Bool} {c : Char} {cs : List Char} (h : isDigit c = true) :
    0 < (numeric negative (c :: cs)).length := by
  have := @numeral_chars_length_pos c cs h
  simp only [numeric]
  split
  · exact Nat.succ_pos _
  · split <;> simp only <;> omega

/-! ## Words -/

/-- The value of a resource lies ahead, with its quotes if it has any. -/
theorem resource_le : ∀ cs : List Char, (resource cs).2 ≤ cs.length
  | [] => Nat.le_refl _
  | c :: cs => by
      rw [resource]
      split
      · have := quotedClosed_le c cs
        simp only [List.length_cons]
        omega
      · exact bare_le _

/-- A resource lies ahead, `n` characters and the parenthesis being behind already. -/
theorem uri_length_le (n : Nat) (cs : List Char) : (uri n cs).length ≤ n + 1 + cs.length := by
  have h1 := whitespace_le cs
  have h2 := resource_le (cs.drop (whitespace cs))
  have h3 := whitespace_le ((cs.drop (whitespace cs)).drop (resource (cs.drop (whitespace cs))).2)
  rw [List.length_drop] at h2
  rw [List.length_drop, List.length_drop] at h3
  simp only [uri]
  split
  · next h =>
    have := lt_length_of_head?_drop h
    rw [List.length_drop, List.length_drop] at this
    omega
  · omega

theorem uri_length_pos (n : Nat) (cs : List Char) : 0 < (uri n cs).length := by
  simp only [uri]
  omega

/-- What begins with a name lies ahead. -/
theorem named_length_le (cs : List Char) : (named cs).length ≤ cs.length := by
  have hn := name_le cs
  simp only [named]
  split
  · next h =>
    have hlt := lt_length_of_head?_drop h
    split
    · have := uri_length_le (name cs) (cs.drop (name cs)).tail
      rw [List.length_tail, List.length_drop] at this
      omega
    · exact hlt
  · exact hn

/-- What begins with a name is not empty, since the name is not. -/
theorem named_length_pos {cs : List Char} (h : 0 < name cs) : 0 < (named cs).length := by
  simp only [named]
  split
  · split
    · exact uri_length_pos ..
    · exact Nat.succ_pos _
  · exact h

/-- The end of a range of code points lies ahead. -/
theorem rangeEnd_le (cs : List Char) : rangeEnd cs ≤ cs.length := by
  unfold rangeEnd
  split
  · next cs =>
    have := hexDigits_le cs
    split
    · exact Nat.zero_le _
    · rw [List.length_cons]
      omega
  · exact Nat.zero_le _

/-- A range of code points that is found lies ahead and is not empty. -/
theorem unicodeRange?_length {cs : List Char} {lx : Lexeme} (h : unicodeRange? cs = some lx) :
    0 < lx.length ∧ lx.length ≤ cs.length := by
  unfold unicodeRange? at h
  split at h
  · next cs =>
    have h1 := hexDigits_le cs
    split at h
    · simp at h
    · next n hn =>
      have h2 := rangeEnd_le (cs.drop (n + 1))
      rw [List.length_drop] at h2
      obtain rfl := Option.some.inj h
      simp only [List.length_cons]
      omega
  · simp at h

theorem word_length_le (cs : List Char) : (word cs).length ≤ cs.length := by
  unfold word
  cases h : unicodeRange? cs with
  | none => exact named_length_le cs
  | some lx => exact (unicodeRange?_length h).2

/-- What begins with a character of a name is not empty. -/
theorem word_length_pos {c : Char} {cs : List Char} (hc : isNameStart c = true) :
    0 < (word (c :: cs)).length := by
  unfold word
  cases h : unicodeRange? (c :: cs) with
  | none => exact named_length_pos (name_pos (by simp [nameItem, isName, hc]))
  | some lx => exact (unicodeRange?_length h).1

/-! ## Tokens after a mark

An attempt that succeeds counts the mark before it too. -/

/-- **What is found behind a mark** is the mark with all that is counted, and that is something. -/
theorem exists_of_counted? {kind : Kind} {n : Nat} {payload : Payload Span} {lx : Lexeme}
    (h : counted? kind n payload = some lx) :
    ∃ m, n = m + 1 ∧ lx = { kind, length := 1 + (m + 1), payload, release := .consuming } := by
  cases n with
  | zero => cases h
  | succ m => exact ⟨m, rfl, (Option.some.inj h).symm⟩

/-- Nothing is found behind a mark if nothing is counted. -/
theorem counted?_eq_none_iff {kind : Kind} {n : Nat} {payload : Payload Span} :
    counted? kind n payload = none ↔ n = 0 := by
  cases n <;> simp [counted?]

/-- What is counted behind a mark lies ahead with the mark. -/
theorem counted?_length {kind : Kind} {n : Nat} {payload : Payload Span} {cs : List Char}
    {lx : Lexeme} (hn : n ≤ cs.length) (h : counted? kind n payload = some lx) :
    0 < lx.length ∧ lx.length ≤ cs.length + 1 := by
  obtain ⟨m, rfl, rfl⟩ := exists_of_counted? h
  simp only
  omega

/-- A variable that is found lies ahead, its closing brace included if it has one. -/
theorem variableName?_length {cs : List Char} {lx : Lexeme} (h : variableName? cs = some lx) :
    0 < lx.length ∧ lx.length ≤ cs.length + 1 := by
  unfold variableName? at h
  split at h
  · next cs =>
    have hrun := run_le (· != '}') cs
    obtain rfl := Option.some.inj h
    refine ⟨by simp only; omega, ?_⟩
    simp only [List.length_cons]
    split
    · omega
    · next hne =>
      have : (cs.drop (run (· != '}') cs)).length ≠ 0 := fun h0 =>
        hne (List.isEmpty_iff.mpr (List.eq_nil_of_length_eq_zero h0))
      rw [List.length_drop] at this
      omega
  · exact counted?_length (letters_le cs) h

/-- What a list begins with is no longer than the list. -/
theorem le_length_of_take_eq {cs ds : List Char} {n : Nat} (h : cs.take n = ds) :
    ds.length ≤ cs.length := by
  rw [← h, List.length_take]
  omega

/-- What begins with a `-` lies ahead and is not empty. -/
theorem minus?_length {cs : List Char} {lx : Lexeme} (h : minus? cs = some lx) :
    0 < lx.length ∧ lx.length ≤ cs.length + 1 := by
  unfold minus? at h
  split at h
  · next hc =>
    have := le_length_of_take_eq hc
    obtain rfl := Option.some.inj h
    simp only [List.length_cons, List.length_nil] at this ⊢
    omega
  · split at h
    · next hd =>
      obtain rfl := Option.some.inj h
      cases cs with
      | nil => simp at hd
      | cons c cs =>
        have := numeric_length_le true (c :: cs)
        refine ⟨numeric_length_pos (by simpa using hd), ?_⟩
        simp only [Bool.toNat_true] at this
        omega
    · exact counted?_length (name_le cs) h

theorem cdataOpen?_length {cs : List Char} {lx : Lexeme} (h : cdataOpen? cs = some lx) :
    0 < lx.length ∧ lx.length ≤ cs.length + 1 := by
  unfold cdataOpen? at h
  split at h
  · next hc =>
    have := le_length_of_take_eq hc
    obtain rfl := Option.some.inj h
    simp only [List.length_cons, List.length_nil] at this ⊢
    omega
  · simp at h

/-! ## Comments -/

/-- A comment that is found lies ahead, with its `*/` or without. -/
theorem comment?_length {o : Options} {cs : List Char} {lx : Lexeme} (h : comment? o cs = some lx) :
    0 < lx.length ∧ lx.length ≤ cs.length + 1 := by
  unfold comment? at h
  split at h
  · next cs =>
    have := line_le cs
    obtain rfl := Option.some.inj h
    simp only [lineComment, List.length_cons]
    omega
  · next cs =>
    have h1 := blockComment_le cs
    have h2 := @blockComment_add_two_le cs
    obtain rfl := Option.some.inj h
    simp only [Lexeme.blockComment, List.length_cons]
    split
    · simp only
      omega
    · simp only
      split <;> omega
  · simp at h

/-! ## The next token -/

/-- **What a mark begins lies ahead** and is not empty. -/
theorem marked?_length {o : Options} {c : Char} {cs : List Char} {lx : Lexeme}
    (h : marked? o c cs = some lx) : 0 < lx.length ∧ lx.length ≤ cs.length + 1 := by
  unfold marked? at h
  split at h
  · exact comment?_length h
  · exact counted?_length (identifier_le cs) h
  · exact counted?_length (name_le cs) h
  · exact variableName?_length h
  · exact minus?_length h
  · exact cdataOpen?_length h
  · split at h
    · next hq =>
      have : 1 ≤ cs.length := List.length_pos_iff.mpr (by rintro rfl; simp at hq)
      obtain rfl := Option.some.inj h
      simpa [operator] using this
    · simp at h
  · split at h
    · next hq =>
      have : 1 ≤ cs.length := List.length_pos_iff.mpr (by rintro rfl; simp at hq)
      obtain rfl := Option.some.inj h
      simpa [operator] using this
    · simp at h
  · simp at h

/-- **What is found at all lies ahead** and is not empty. -/
theorem attempt?_length {o : Options} {c : Char} {cs : List Char} {lx : Lexeme}
    (h : attempt? o c cs = some lx) : 0 < lx.length ∧ lx.length ≤ cs.length + 1 := by
  unfold attempt? at h
  split at h
  · have := whitespace_le cs
    obtain rfl := Option.some.inj h
    simp only
    omega
  split at h
  · next hd =>
    have := numeric_length_le false (c :: cs)
    obtain rfl := Option.some.inj h
    refine ⟨numeric_length_pos hd, ?_⟩
    simpa using this
  split at h
  · obtain rfl := Option.some.inj h
    exact ⟨Nat.one_pos, Nat.le_add_left ..⟩
  split at h
  · next hn =>
    obtain rfl := Option.some.inj h
    exact ⟨word_length_pos hn, word_length_le (c :: cs)⟩
  split at h
  · have := quotedClosed_le c cs
    obtain rfl := Option.some.inj h
    simp only [Lexeme.quoted]
    omega
  exact marked?_length h

/-- **What a character begins lies ahead** and is not empty. -/
theorem leading_length (o : Options) (c : Char) (cs : List Char) :
    0 < (leading o c cs).length ∧ (leading o c cs).length ≤ cs.length + 1 := by
  unfold leading
  cases h : attempt? o c cs with
  | none => exact ⟨Nat.one_pos, Nat.le_add_left ..⟩
  | some lx => exact attempt?_length h

/-- **Every token has a character.** -/
theorem length_pos_of_next? {o : Options} {closing : Bool} {cs : List Char} {lx : Lexeme}
    (h : next? o closing cs = some lx) : 0 < lx.length := by
  cases cs with
  | nil => simp [next?] at h
  | cons c cs =>
    rw [next?] at h
    obtain rfl := Option.some.inj h
    split
    · exact Nat.two_pos
    · exact (leading_length o c cs).1

/-- **Every token lies ahead**, the second half of a split comment if it was announced rightly. -/
theorem length_le_of_next? {o : Options} {closing : Bool} {cs : List Char} {lx : Lexeme}
    (h : next? o closing cs = some lx) (hc : closing = true → 2 ≤ cs.length) :
    lx.length ≤ cs.length := by
  cases cs with
  | nil => simp [next?] at h
  | cons c cs =>
    rw [next?] at h
    obtain rfl := Option.some.inj h
    split
    · next hcl => exact hc hcl
    · exact (leading_length o c cs).2

end Lexeme

end StyleLex
