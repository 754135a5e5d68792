import StyleLex.Proofs.Rule

/-!
# Proofs/Truncation — a token does not depend on what comes after it

`leading_take`: cut the text anywhere behind the next token, and the next token stays the same, in
all that is measured of it.  So a look past the end of a token can only have led to a longer token,
never to a different one of the same length.

Each count of `Extent` and each rule has this property (`…_take`), and that of a rule follows from
those of the counts it is made of.  A rule that may find nothing has it in the form that it finds
the same, nothing included, provided that what it finds is not cut.
-/

namespace StyleLex

/-! ## The beginning of a cut list -/

/-- A list that is cut later begins with the same character. -/
theorem head?_take_of_pos {cs : List Char} {n : Nat} (hn : 0 < n) :
    (cs.take n).head? = cs.head? := by
  rw [List.head?_take, if_neg (Nat.ne_of_gt hn)]

/-- Cutting a list brings no other character to its beginning. -/
theorem head?_take_ne {cs : List Char} {c : Char} (h : cs.head? ≠ some c) (n : Nat) :
    (cs.take n).head? ≠ some c := by
  rw [List.head?_take]
  split
  · exact fun h => nomatch h
  · exact h

/-- Behind its first character a cut list is cut one earlier. -/
theorem tail_take (cs : List Char) (n : Nat) : (cs.take n).tail = cs.tail.take (n - 1) := by
  rw [← List.drop_one, List.drop_take, List.drop_one]

/-- A cut list begins with `ds` only if the list does. -/
theorem take_take_ne {cs ds : List Char} {k : Nat} (h : cs.take k ≠ ds) (hk : ds.length = k)
    (n : Nat) : (cs.take n).take k ≠ ds := by
  rw [List.take_take]
  intro hds
  have hlen := congrArg List.length hds
  rw [List.length_take] at hlen
  rw [Nat.min_eq_left (by omega)] at hds
  exact h hds

namespace Extent

open Chars

/-! ## Runs -/

/-- A run keeps its characters if the list is cut behind it. -/
theorem takeWhile_take {p : Char → Bool} {cs : List Char} {n : Nat} (h : run p cs ≤ n) :
    (cs.take n).takeWhile p = cs.takeWhile p := by
  rw [← List.take_takeWhile, List.take_of_length_le h]

/-- What follows a run is what is left after as many characters. -/
theorem dropWhile_eq_drop_run (p : Char → Bool) (cs : List Char) :
    cs.dropWhile p = cs.drop (run p cs) := by
  have h := @List.drop_left _ (cs.takeWhile p) (cs.dropWhile p)
  rw [List.takeWhile_append_dropWhile] at h
  exact h.symm

/-- **A run ends where it did** if the list is cut behind it. -/
theorem run_take {p : Char → Bool} {cs : List Char} {n : Nat} (h : run p cs ≤ n) :
    run p (cs.take n) = run p cs := congrArg List.length (takeWhile_take h)

theorem whitespace_take {cs : List Char} {n : Nat} (h : whitespace cs ≤ n) :
    whitespace (cs.take n) = whitespace cs := run_take h

theorem letters_take {cs : List Char} {n : Nat} (h : letters cs ≤ n) :
    letters (cs.take n) = letters cs := run_take h

/-- What follows a run is cut by as many characters less. -/
theorem dropWhile_take {p : Char → Bool} {cs : List Char} {n : Nat} (h : run p cs ≤ n) :
    (cs.take n).dropWhile p = (cs.dropWhile p).take (n - run p cs) := by
  rw [dropWhile_eq_drop_run, dropWhile_eq_drop_run, run_take h, List.drop_take]

/-- The digits of a code point stay, as many as belong to one. -/
theorem hexDigits_take {cs : List Char} {n : Nat} (h : hexDigits cs ≤ n) :
    hexDigits (cs.take n) = hexDigits cs := by
  unfold hexDigits at *
  rw [List.take_take, Nat.min_comm, ← List.take_take]
  exact run_take h

/-! ## Names -/

/-- A digit that is ahead is counted. -/
theorem hexDigits_pos {c : Char} (hc : isHexDigit c = true) (cs : List Char) :
    0 < hexDigits (c :: cs) := by
  rw [hexDigits, run, maxHexDigits, List.take_succ_cons, List.takeWhile_cons_of_pos hc,
    List.length_cons]
  exact Nat.succ_pos _

/-- An escape has a backslash and one character more at least. -/
theorem escape_eq_zero_or (cs : List Char) : escape cs = 0 ∨ 2 ≤ escape cs := by
  unfold escape
  split
  · next c ds =>
    split
    · next hc =>
      have := hexDigits_pos hc ds
      exact Or.inr (by omega)
    · split
      · exact Or.inl rfl
      · exact Or.inr (Nat.le_refl 2)
  · exact Or.inl rfl

/-- No escape begins without a backslash. -/
theorem escape_of_ne {c : Char} (hc : c ≠ '\\') (cs : List Char) : escape (c :: cs) = 0 := by
  unfold escape
  split
  · next heq => exact absurd (List.cons.inj heq).1 hc
  · rfl

/-- **An escape stays as it is** if it is not cut: after its backslash alone it would be none. -/
theorem escape_take : ∀ {cs : List Char} {n : Nat}, escape cs ≤ n → escape (cs.take n) = escape cs
  | [], _, _ => by rw [List.take_nil]
  | _ :: _, 0, h => (Nat.le_zero.mp h).symm
  | [c], n + 1, _ => by rw [List.take_succ_cons, List.take_nil]
  | c :: d :: cs, 1, h => by
      rcases escape_eq_zero_or (c :: d :: cs) with h0 | h2
      · have := escape_le [c]
        rcases escape_eq_zero_or [c] with h1 | h1
        · exact h1.trans h0.symm
        · rw [List.length_singleton] at this
          omega
      · omega
  | c :: d :: cs, n + 2, h => by
      rw [List.take_succ_cons, List.take_succ_cons]
      by_cases hc : c = '\\'
      · subst hc
        simp only [escape] at h ⊢
        split
        · next hd =>
          rw [if_pos hd] at h
          have := @hexDigits_take (d :: cs) (n + 1) (by omega)
          rw [List.take_succ_cons] at this
          rw [this]
        · rfl
      · rw [escape_of_ne hc, escape_of_ne hc]

/-- An item of a name: a character of some class, or an escape. -/
theorem item_take {f : List Char → Nat} {p : Char → Bool} (hnil : f [] = 0)
    (hcons : ∀ c cs, f (c :: cs) = if p c then 1 else escape (c :: cs)) :
    ∀ {cs : List Char} {n : Nat}, f cs ≤ n → f (cs.take n) = f cs
  | [], _, _ => by rw [List.take_nil]
  | _ :: _, 0, h => hnil.trans (Nat.le_zero.mp h).symm
  | c :: cs, n + 1, h => by
      have hescape := @escape_take (c :: cs) (n + 1)
      rw [List.take_succ_cons] at hescape ⊢
      rw [hcons] at h
      rw [hcons, hcons]
      split
      · rfl
      · next hc =>
        rw [if_neg hc] at h
        exact hescape h

theorem nameItem_take {cs : List Char} {n : Nat} (h : nameItem cs ≤ n) :
    nameItem (cs.take n) = nameItem cs := item_take rfl (fun _ _ => rfl) h

theorem nameStart_take {cs : List Char} {n : Nat} (h : nameStart cs ≤ n) :
    nameStart (cs.take n) = nameStart cs := item_take rfl (fun _ _ => rfl) h

/-- The induction takes one item of the name after another. -/
theorem name_take {cs : List Char} {n : Nat} (h : name cs ≤ n) : name (cs.take n) = name cs := by
  induction hk : cs.length using Nat.strongRecOn generalizing cs n with
  | ind k ih =>
    rw [name_eq cs] at h ⊢
    by_cases h0 : nameItem cs = 0
    · rw [name_eq, nameItem_take (by omega), if_pos h0, if_pos h0]
    · rw [if_neg h0] at h ⊢
      have hle := nameItem_le cs
      have hlen : (cs.drop (nameItem cs)).length < k := by
        rw [List.length_drop]
        omega
      rw [name_eq, nameItem_take (by omega), if_neg h0, List.drop_take,
        ih _ hlen (by omega) rfl]

/-- An identifier has at least its first item. -/
theorem nameStart_le_identifier (cs : List Char) : nameStart cs ≤ identifier cs := by
  unfold identifier
  split <;> omega

/-- An identifier stays as it is, its first item and the name behind it. -/
theorem identifier_take {cs : List Char} {n : Nat} (h : identifier cs ≤ n) :
    identifier (cs.take n) = identifier cs := by
  have hstart := nameStart_le_identifier cs
  unfold identifier at *
  rw [nameStart_take (Nat.le_trans hstart h)]
  split
  · rfl
  · next k hk =>
    rw [hk] at h
    simp only at h
    rw [List.drop_take, name_take (by omega)]

/-! ## Comments and strings -/

/-- A closed block comment keeps its inside as long as its `*/` is kept too. -/
theorem blockComment_take : ∀ {cs : List Char} {n : Nat}, blockComment cs + 2 ≤ n →
    blockComment (cs.take n) = blockComment cs
  | [], _, _ => by rw [List.take_nil]
  | c :: cs, n + 1, h => by
      have hhead : (cs.take n).head? = cs.head? := head?_take_of_pos (by omega)
      rw [blockComment] at h
      rw [List.take_succ_cons, blockComment, blockComment, hhead]
      split
      · rfl
      · next hc =>
        rw [if_neg hc] at h
        rw [blockComment_take (by omega)]

/-- The inside of a string ends at its quote and at the end of the line. -/
theorem quoted_stop {q c : Char} (h : c = q ∨ isLineEnd c = true) (cs : List Char) :
    quoted q (c :: cs) = 0 := by
  unfold quoted
  exact if_pos h

/-- Inside a string a backslash and the character behind it belong together. -/
theorem quoted_escape {q c : Char} (h : ¬(c = q ∨ isLineEnd c = true)) (hb : c = '\\') (d : Char)
    (cs : List Char) : quoted q (c :: d :: cs) = 2 + quoted q cs := by
  rw [quoted, if_neg h, if_pos hb]

/-- Inside a string any other character stands alone. -/
theorem quoted_other {q c : Char} (h : ¬(c = q ∨ isLineEnd c = true)) (hb : c ≠ '\\')
    (cs : List Char) : quoted q (c :: cs) = 1 + quoted q cs := by
  cases cs with
  | nil =>
    unfold quoted
    rw [if_neg h, if_neg hb]
    rfl
  | cons d cs => rw [quoted, if_neg h, if_neg hb]

/-- A backslash at the end belongs to the inside. -/
theorem quoted_dangling {q : Char} (h : ¬('\\' = q ∨ isLineEnd '\\' = true)) :
    quoted q ['\\'] = 1 := by
  rw [quoted, if_neg h, if_pos rfl]

/-- **The inside of a string stays as it is**, escape after escape. -/
theorem quoted_take (q : Char) {cs : List Char} {n : Nat} (h : quoted q cs ≤ n) :
    quoted q (cs.take n) = quoted q cs := by
  fun_induction quoted q cs generalizing n with
  | case1 => rw [List.take_nil, quoted]
  | case2 c cs hc =>
    cases n with
    | zero => rfl
    | succ n => rw [List.take_succ_cons, quoted_stop hc]
  | case3 hc =>
    rw [List.take_of_length_le h, quoted_dangling hc]
  | case4 c cs hc ih =>
    -- what the backslash escapes is kept with it
    obtain ⟨n, rfl⟩ : ∃ m, n = m + 2 := ⟨n - 2, by omega⟩
    rw [List.take_succ_cons, List.take_succ_cons, quoted_escape hc rfl, ih (by omega)]
  | case5 c cs hc hb ih =>
    obtain ⟨n, rfl⟩ : ∃ m, n = m + 1 := ⟨n - 1, by omega⟩
    rw [List.take_succ_cons, quoted_other hc hb, ih (by omega)]

/-- A string keeps its quote, or still has none. -/
theorem quotedClosed_take {q : Char} {cs : List Char} {n : Nat} (h : quotedClosed q cs ≤ n) :
    quotedClosed q (cs.take n) = quotedClosed q cs := by
  simp only [quotedClosed] at *
  split at h
  · next hq =>
    rw [quoted_take q (by omega), List.drop_take, head?_take_of_pos (by omega)]
  · next hq =>
    rw [quoted_take q h, List.drop_take, if_neg (head?_take_ne hq _), if_neg hq]

end Extent

namespace Numeral

open Chars Extent

/-- A numeral with a point has the digits before it and those behind it. -/
theorem read_point {cs rest : List Char} (h : cs.dropWhile isDigit = '.' :: rest) :
    read cs =
      (⟨cs.takeWhile isDigit, some (rest.takeWhile isDigit)⟩, rest.dropWhile isDigit) := by
  unfold read
  rw [h]
  rfl

/-- A numeral without a point is a run of digits. -/
theorem read_no_point {cs : List Char} (h : (cs.dropWhile isDigit).head? ≠ some '.') :
    read cs = (⟨cs.takeWhile isDigit, none⟩, cs.dropWhile isDigit) := by
  unfold read
  split
  · next rest heq => exact absurd (congrArg List.head? heq) h
  · rfl

/-- A numeral keeps its digits, and what follows it is cut. -/
theorem read_take {cs : List Char} {n : Nat} (h : (read cs).1.chars.length ≤ n) :
    read (cs.take n) = ((read cs).1, (read cs).2.take (n - (read cs).1.chars.length)) := by
  by_cases hp : (cs.dropWhile isDigit).head? = some '.'
  · obtain ⟨rest, hrest⟩ := List.head?_eq_some_iff.mp hp
    rw [read_point hrest] at h ⊢
    simp only [chars, List.length_append, List.length_cons] at h ⊢
    have htail := @dropWhile_take isDigit cs n (by unfold run; omega)
    obtain ⟨k, hk⟩ : ∃ k, n - (cs.takeWhile isDigit).length = k + 1 :=
      ⟨n - (cs.takeWhile isDigit).length - 1, by omega⟩
    rw [hrest, run, hk, List.take_succ_cons] at htail
    have hlen : k - run isDigit rest =
        n - ((cs.takeWhile isDigit).length + ((rest.takeWhile isDigit).length + 1)) := by
      unfold run
      omega
    rw [read_point htail, takeWhile_take (by unfold run; omega),
      takeWhile_take (by unfold run; omega), dropWhile_take (by unfold run; omega), hlen]
  · rw [read_no_point hp] at h ⊢
    have htail := @dropWhile_take isDigit cs n h
    have hp' := head?_take_ne hp (n - run isDigit cs)
    rw [← htail] at hp'
    rw [read_no_point hp', takeWhile_take h, htail]
    rfl

end Numeral

namespace Lexeme

open Chars Extent

/-! ## Numbers -/

/-- A number has at least its sign and its numeral. -/
theorem numeral_length_le (negative : Bool) (cs : List Char) :
    negative.toNat + (Numeral.read cs).1.chars.length ≤ (numeric negative cs).length := by
  simp only [numeric]
  split
  · exact Nat.le_succ _
  · split
    · exact Nat.le_refl _
    · exact Nat.le_add_right ..

/-- **A number stays a number**, percentage or dimension, with the same unit. -/
theorem numeric_take {negative : Bool} {cs : List Char} {n : Nat}
    (h : (numeric negative cs).length ≤ negative.toNat + n) :
    numeric negative (cs.take n) = numeric negative cs := by
  have hle := numeral_length_le negative cs
  have hn : (Numeral.read cs).1.chars.length ≤ n := by omega
  simp only [numeric] at h ⊢
  rw [Numeral.read_take hn]
  simp only
  split at h
  · next hp =>
    simp only at h
    rw [head?_take_of_pos (by omega), if_pos hp, if_pos hp]
  · next hp =>
    rw [if_neg (head?_take_ne hp _), if_neg hp]
    split at h
    · next hu => rw [letters_take (by omega), if_pos hu]
    · next hu =>
      simp only at h
      rw [letters_take (by omega)]

/-! ## Words -/

/-- The value of a resource stays as it is, quoted or bare. -/
theorem resource_take : ∀ {cs : List Char} {n : Nat}, (resource cs).2 ≤ n →
    resource (cs.take n) = resource cs
  | [], _, _ => by rw [List.take_nil]
  | c :: cs, 0, h => by
      -- nothing is taken up, so the resource is bare and empty
      rw [resource] at h ⊢
      split at h
      · simp only at h
        omega
      · next hq =>
        have hb : bare (c :: cs) = 0 := Nat.le_zero.mp h
        rw [if_neg hq, hb]
        rfl
  | c :: cs, n + 1, h => by
      have hbare := @run_take (fun c => !isWhitespace c && c != ')') (c :: cs) (n + 1)
      rw [List.take_succ_cons] at hbare ⊢
      rw [resource] at h
      rw [resource, resource]
      split at h
      · next hq =>
        have hle := quoted_le_quotedClosed c cs
        simp only at h
        rw [if_pos hq, if_pos hq, quotedClosed_take (by omega), quoted_take c (by omega)]
      · next hq =>
        rw [if_neg hq, if_neg hq]
        unfold bare
        rw [hbare h]

/-- A resource has more characters than its scheme. -/
theorem lt_uri_length (k : Nat) (cs : List Char) : k < (uri k cs).length := by
  simp only [uri]
  omega

/-- **A resource stays as it is**, its white space and its parenthesis included. -/
theorem uri_take {k : Nat} {cs : List Char} {n : Nat} (h : (uri k cs).length ≤ k + 1 + n) :
    uri k (cs.take n) = uri k cs := by
  have hlen : whitespace cs + (resource (cs.drop (whitespace cs))).2 +
      whitespace ((cs.drop (whitespace cs)).drop (resource (cs.drop (whitespace cs))).2) ≤ n := by
    simp only [uri] at h
    omega
  simp only [uri] at h ⊢
  rw [whitespace_take (by omega), List.drop_take, resource_take (by omega), List.drop_take,
    whitespace_take (by omega), List.drop_take]
  split at h
  · next hp => rw [head?_take_of_pos (by omega), if_pos hp]
  · next hp => rw [if_neg (head?_take_ne hp _), if_neg hp]

/-- What begins with a name has at least the name. -/
theorem name_le_named_length (cs : List Char) : name cs ≤ (named cs).length := by
  simp only [named]
  split
  · split
    · exact Nat.le_of_lt (lt_uri_length _ _)
    · exact Nat.le_succ _
  · exact Nat.le_refl _

/-- What begins with a name stays the function, resource or identifier that it was. -/
theorem named_take {cs : List Char} {n : Nat} (h : (named cs).length ≤ n) :
    named (cs.take n) = named cs := by
  have hn : name cs ≤ n := Nat.le_trans (name_le_named_length cs) h
  simp only [named] at h ⊢
  rw [name_take hn, List.drop_take, List.take_take, Nat.min_eq_left hn, tail_take]
  split at h
  · next hp =>
    split at h
    · next hs =>
      have hlt := lt_uri_length (name cs) (cs.drop (name cs)).tail
      rw [head?_take_of_pos (by omega), if_pos hp, if_pos hp, if_pos hs, if_pos hs,
        uri_take (by omega)]
    · next hs =>
      simp only at h
      rw [head?_take_of_pos (by omega), if_pos hp, if_pos hp, if_neg hs, if_neg hs]
  · next hp => rw [if_neg (head?_take_ne hp _), if_neg hp]

/-- Without a `-` a range of code points has no end. -/
theorem rangeEnd_of_ne {cs : List Char} (h : cs.head? ≠ some '-') : rangeEnd cs = 0 := by
  unfold rangeEnd
  split
  · exact absurd rfl h
  · rfl

theorem rangeEnd_take {cs : List Char} {n : Nat} (h : rangeEnd cs ≤ n) :
    rangeEnd (cs.take n) = rangeEnd cs := by
  by_cases hd : cs.head? = some '-'
  · obtain ⟨ds, rfl⟩ := List.head?_eq_some_iff.mp hd
    cases n with
    | zero => exact (Nat.le_zero.mp h).symm
    | succ n =>
      rw [rangeEnd] at h
      rw [List.take_succ_cons, rangeEnd, rangeEnd]
      split at h
      · next h0 => rw [hexDigits_take (by omega), h0]
      · next k hk => rw [hexDigits_take (by omega), hk]
  · rw [rangeEnd_of_ne hd, rangeEnd_of_ne (head?_take_ne hd n)]

/-- No range of code points begins without `u+`. -/
theorem unicodeRange?_of_ne {cs : List Char} (h : cs.take 2 ≠ ['u', '+']) :
    unicodeRange? cs = none := by
  unfold unicodeRange?
  split
  · exact absurd rfl h
  · rfl

/-- A range of code points is found again, and none where there was none. -/
theorem unicodeRange?_take {cs : List Char} {n : Nat}
    (h : ∀ lx, unicodeRange? cs = some lx → lx.length ≤ n) :
    unicodeRange? (cs.take n) = unicodeRange? cs := by
  by_cases hu : cs.take 2 = ['u', '+']
  · obtain ⟨ds, rfl⟩ : ∃ ds, cs = 'u' :: '+' :: ds :=
      ⟨cs.drop 2, by rw [← List.take_append_drop 2 cs, hu]; rfl⟩
    cases hk : hexDigits ds with
    | zero =>
      have hnone : ∀ es : List Char, hexDigits es = 0 → unicodeRange? ('u' :: '+' :: es) = none :=
        fun es hes => by rw [unicodeRange?, hes]
      rw [hnone ds hk]
      match n with
      | 0 => rfl
      | 1 => rfl
      | n + 2 => exact hnone _ (by rw [hexDigits_take (by omega), hk])
    | succ k =>
      have hlen := h _ (by rw [unicodeRange?, hk])
      simp only at hlen
      obtain ⟨m, rfl⟩ : ∃ m, n = m + 2 := ⟨n - 2, by omega⟩
      rw [List.take_succ_cons, List.take_succ_cons, unicodeRange?, unicodeRange?,
        hexDigits_take (by omega), hk]
      simp only
      rw [List.drop_take, rangeEnd_take (by omega)]
  · rw [unicodeRange?_of_ne hu, unicodeRange?_of_ne (take_take_ne hu rfl n)]

/-- What begins with a character of a name stays as it is. -/
theorem word_take {cs : List Char} {n : Nat} (h : (word cs).length ≤ n) :
    word (cs.take n) = word cs := by
  unfold word at *
  cases hu : unicodeRange? cs with
  | none =>
    rw [hu] at h
    rw [unicodeRange?_take (by simp [hu]), hu]
    exact named_take h
  | some lx =>
    rw [hu] at h
    rw [unicodeRange?_take (by simpa [hu] using h), hu]
    rfl

/-! ## Tokens after a mark

What is found counts the mark, which is not among the characters that are cut. -/

/-- If what is found goes no further than the `n` characters behind the mark, these are all that is
counted. -/
theorem le_of_counted? {kind : Kind} {m n : Nat} {payload : Payload Span}
    (h : ∀ lx, counted? kind m payload = some lx → lx.length ≤ n + 1) : m ≤ n := by
  cases m with
  | zero => exact Nat.zero_le n
  | succ m =>
    have hlen := h _ rfl
    simp only at hlen
    omega

/-- **What is counted behind a mark** does not depend on what comes after it, if the count does
not. -/
theorem counted?_take {f : List Char → Nat}
    (htake : ∀ {cs : List Char} {n : Nat}, f cs ≤ n → f (cs.take n) = f cs) {kind : Kind}
    {cs : List Char} {n : Nat} (h : ∀ lx, counted? kind (f cs) = some lx → lx.length ≤ n + 1) :
    counted? kind (f (cs.take n)) = counted? kind (f cs) := by
  rw [htake (le_of_counted? h)]

/-- Without a brace behind it a `$` takes letters. -/
theorem variableName?_of_ne {cs : List Char} (h : cs.head? ≠ some '{') :
    variableName? cs = counted? .variableName (letters cs) (.text ⟨1, 1 + letters cs⟩) := by
  unfold variableName?
  split
  · exact absurd rfl h
  · rfl

/-- A variable stays as it is, also if its closing brace is missing. -/
theorem variableName?_take {cs : List Char} {n : Nat}
    (h : ∀ lx, variableName? cs = some lx → lx.length ≤ n + 1) :
    variableName? (cs.take n) = variableName? cs := by
  by_cases hb : cs.head? = some '{'
  · obtain ⟨ds, rfl⟩ := List.head?_eq_some_iff.mp hb
    have hlen := h _ (by rw [variableName?])
    simp only at hlen
    obtain ⟨m, rfl⟩ : ∃ m, n = m + 1 := ⟨n - 1, by omega⟩
    have hrun : run (· != '}') ds ≤ m := by omega
    have hclose : ((ds.take m).drop (run (· != '}') ds)).isEmpty =
        (ds.drop (run (· != '}') ds)).isEmpty := by
      rw [List.drop_take]
      split at hlen
      · next he => rw [List.isEmpty_iff.mp he, List.take_nil]
      · next he =>
        obtain ⟨k, hk⟩ : ∃ k, m - run (· != '}') ds = k + 1 :=
          ⟨m - run (· != '}') ds - 1, by omega⟩
        rw [hk]
        cases hds : ds.drop (run (· != '}') ds) with
        | nil => rw [List.take_nil]
        | cons => rfl
    rw [List.take_succ_cons, variableName?, variableName?, run_take hrun, hclose]
  · rw [variableName?_of_ne hb] at h ⊢
    rw [variableName?_of_ne (head?_take_ne hb n), letters_take (le_of_counted? h)]

/-- What begins with a `-` stays the marker, number or identifier that it was. -/
theorem minus?_take {cs : List Char} {n : Nat} (h : ∀ lx, minus? cs = some lx → lx.length ≤ n + 1) :
    minus? (cs.take n) = minus? cs := by
  unfold minus? at *
  by_cases hc : cs.take 2 = ['-', '>']
  · rw [if_pos hc] at h ⊢
    have hlen := h _ rfl
    simp only at hlen
    rw [List.take_take, Nat.min_eq_left (by omega), if_pos hc]
  rw [if_neg hc] at h ⊢
  rw [if_neg (take_take_ne hc rfl n)]
  by_cases hd : cs.head?.any isDigit = true
  · rw [if_pos hd] at h ⊢
    have hlen := h _ rfl
    have hpos := numeral_length_le true cs
    cases cs with
    | nil => cases hd
    | cons c cs =>
      have hchars := @numeral_chars_length_pos c cs (by simpa using hd)
      rw [Bool.toNat_true] at hpos
      rw [head?_take_of_pos (by omega), if_pos hd, numeric_take (by rw [Bool.toNat_true]; omega)]
  · rw [if_neg hd] at h ⊢
    have hd' : ¬(cs.take n).head?.any isDigit = true := by
      rw [List.head?_take]
      split
      · exact Bool.noConfusion
      · exact hd
    rw [if_neg hd']
    exact counted?_take name_take h

theorem cdataOpen?_take {cs : List Char} {n : Nat}
    (h : ∀ lx, cdataOpen? cs = some lx → lx.length ≤ n + 1) :
    cdataOpen? (cs.take n) = cdataOpen? cs := by
  unfold cdataOpen? at *
  by_cases hc : cs.take 3 = ['!', '-', '-']
  · rw [if_pos hc] at h ⊢
    have hlen := h _ rfl
    simp only at hlen
    rw [List.take_take, Nat.min_eq_left (by omega), if_pos hc]
  · rw [if_neg hc, if_neg (take_take_ne hc rfl n)]

/-- An operator of two characters keeps its `=`, or still has none. -/
theorem matchOperator_take {cs : List Char} {n : Nat}
    (h : ∀ lx, (if cs.head? = some '=' then some (operator 2) else none) = some lx →
      lx.length ≤ n + 1) :
    (if (cs.take n).head? = some '=' then some (operator 2) else none) =
      if cs.head? = some '=' then some (operator 2) else none := by
  by_cases he : cs.head? = some '='
  · rw [if_pos he] at h
    have hlen := h _ rfl
    simp only [operator] at hlen
    rw [head?_take_of_pos (by omega)]
  · rw [if_neg he, if_neg (head?_take_ne he n)]

/-! ## Comments -/

theorem blockComment_take {o : Options} (ho : o.commentMarkers = false) {cs : List Char} {n : Nat}
    (h : (blockComment o cs).length ≤ n + 2) : blockComment o (cs.take n) = blockComment o cs := by
  rw [blockComment_of_whole ho] at h
  by_cases hb : Extent.blockComment cs < cs.length
  · simp only [if_pos hb] at h
    have hb' : Extent.blockComment cs < (cs.take n).length := by
      rw [List.length_take]
      omega
    rw [blockComment_of_whole ho, blockComment_of_whole ho, Extent.blockComment_take (by omega),
      if_pos hb, if_pos hb']
  · have hle := Extent.blockComment_le cs
    simp only [if_neg hb] at h
    rw [List.take_of_length_le (by omega)]

/-- No comment begins with another character behind the `/`. -/
theorem comment?_of_ne {o : Options} {cs : List Char} (hl : cs.head? ≠ some '/')
    (hb : cs.head? ≠ some '*') : comment? o cs = none := by
  unfold comment?
  split
  · exact absurd rfl hl
  · exact absurd rfl hb
  · rfl

/-- A comment that is split ends before its `*/`, so it does depend on what comes after it. -/
theorem comment?_take {o : Options} (ho : o.commentMarkers = false) {cs : List Char} {n : Nat}
    (h : ∀ lx, comment? o cs = some lx → lx.length ≤ n + 1) :
    comment? o (cs.take n) = comment? o cs := by
  by_cases hl : cs.head? = some '/'
  · obtain ⟨ds, rfl⟩ := List.head?_eq_some_iff.mp hl
    have hlen := h _ rfl
    simp only [lineComment] at hlen
    obtain ⟨m, rfl⟩ : ∃ m, n = m + 1 := ⟨n - 1, by omega⟩
    have hline : line (ds.take m) = line ds := run_take (by unfold line at hlen; omega)
    rw [List.take_succ_cons, comment?, comment?, lineComment, lineComment, hline]
  by_cases hb : cs.head? = some '*'
  · obtain ⟨ds, rfl⟩ := List.head?_eq_some_iff.mp hb
    have hlen := h _ rfl
    have htwo : 2 ≤ (blockComment o ds).length := by
      rw [blockComment_of_whole ho]
      simp only
      omega
    obtain ⟨m, rfl⟩ : ∃ m, n = m + 1 := ⟨n - 1, by omega⟩
    rw [List.take_succ_cons, comment?, comment?, blockComment_take ho hlen]
  · rw [comment?_of_ne hl hb, comment?_of_ne (head?_take_ne hl n) (head?_take_ne hb n)]

/-! ## The next token -/

/-- **What a mark begins** stays as it is. -/
theorem marked?_take {o : Options} (ho : o.commentMarkers = false) {c : Char} {cs : List Char}
    {n : Nat} (h : ∀ lx, marked? o c cs = some lx → lx.length ≤ n + 1) :
    marked? o c (cs.take n) = marked? o c cs := by
  unfold marked? at *
  split
  · exact comment?_take ho h
  · exact counted?_take identifier_take h
  · exact counted?_take name_take h
  · exact variableName?_take h
  · exact minus?_take h
  · exact cdataOpen?_take h
  · exact matchOperator_take h
  · exact matchOperator_take h
  · rfl

/-- **What is found at all** stays as it is, and is found in the same way. -/
theorem attempt?_take {o : Options} (ho : o.commentMarkers = false) {c : Char} {cs : List Char}
    {n : Nat} (h : ∀ lx, attempt? o c cs = some lx → lx.length ≤ n + 1) :
    attempt? o c (cs.take n) = attempt? o c cs := by
  have hcons : (c :: cs).take (n + 1) = c :: cs.take n := List.take_succ_cons
  unfold attempt? at *
  split
  · next hw =>
    rw [if_pos hw] at h
    have hlen := h _ rfl
    simp only at hlen
    rw [whitespace_take (by omega)]
  next hw =>
  rw [if_neg hw] at h
  split
  · next hd =>
    rw [if_pos hd] at h
    have hlen := h _ rfl
    rw [← hcons, numeric_take (by simpa using hlen)]
  next hd =>
  rw [if_neg hd] at h
  split
  · rfl
  next hc =>
  rw [if_neg hc] at h
  split
  · next hn =>
    rw [if_pos hn] at h
    rw [← hcons, word_take (h _ rfl)]
  next hn =>
  rw [if_neg hn] at h
  split
  · next hq =>
    rw [if_pos hq] at h
    have hlen := h _ rfl
    have hle := quoted_le_quotedClosed c cs
    simp only [Lexeme.quoted] at hlen ⊢
    rw [quotedClosed_take (by omega), quoted_take c (by omega)]
  next hq =>
  rw [if_neg hq] at h
  exact marked?_take ho h

/-- **A token does not depend on what comes after it.** -/
theorem leading_take {o : Options} (ho : o.commentMarkers = false) {c : Char} {cs : List Char}
    {n : Nat} (h : (leading o c cs).length ≤ n + 1) :
    leading o c (cs.take n) = leading o c cs := by
  unfold leading at *
  rw [attempt?_take ho fun lx hlx => by rwa [hlx] at h]

end Lexeme

end StyleLex
