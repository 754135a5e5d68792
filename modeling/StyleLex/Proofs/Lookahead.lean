import StyleLex.Proofs.CommentMarkers
import StyleLex.Proofs.Truncation

/-!
# Proofs/Lookahead — how far past its end a token looks

`leading_append`: if three characters at least are left behind the next token, then text that is
appended does not change it.

Nothing has to be said about what is measured, only about how much.  By `leading_take` the two
tokens are the same unless the one of the longer text goes past the end of the shorter text.  So it
is enough that such a token, cut short there, leaves at most two characters over.  Each count of
`Extent` and each rule has this property (`…_take_of_lt`, `…_take_of_le`).  Most of them leave
nothing.  A name may lose a backslash that escapes nothing any more, a range of code points its
dash, and `<!--` is the only token that may fall apart into three.
-/

namespace StyleLex

namespace Extent

open Chars

/-! ## Runs -/

/-- A run that is cut inside ends at the cut. -/
theorem run_take_of_le {p : Char → Bool} {cs : List Char} {n : Nat} (h : n ≤ run p cs) :
    run p (cs.take n) = n := by
  rw [run, ← List.take_takeWhile, List.length_take]
  exact Nat.min_eq_left h

theorem whitespace_take_of_le {cs : List Char} {n : Nat} (h : n ≤ whitespace cs) :
    whitespace (cs.take n) = n := run_take_of_le h

theorem letters_take_of_le {cs : List Char} {n : Nat} (h : n ≤ letters cs) :
    letters (cs.take n) = n := run_take_of_le h

theorem hexDigits_take_of_le {cs : List Char} {n : Nat} (h : n ≤ hexDigits cs) :
    hexDigits (cs.take n) = n := by
  unfold hexDigits at *
  rw [List.take_take, Nat.min_comm, ← List.take_take]
  exact run_take_of_le h

/-! ## Names -/

/-- An escape may lose one character more than is cut off: the backslash before the cut. -/
theorem escape_take_of_lt {cs : List Char} {n : Nat} (h : n < escape cs) :
    n ≤ escape (cs.take n) + 1 := by
  by_cases hn : n ≤ 1
  · omega
  obtain ⟨m, rfl⟩ : ∃ m, n = m + 2 := ⟨n - 2, by omega⟩
  unfold escape at h
  split at h
  · next c ds =>
    split at h
    · next hc =>
      have hm := @hexDigits_take_of_le (c :: ds) (m + 1) (by omega)
      rw [List.take_succ_cons] at hm
      rw [List.take_succ_cons, List.take_succ_cons, escape, if_pos hc, hm]
      omega
    · split at h <;> omega
  · omega

/-- An item of a name: a character of some class, or an escape. -/
theorem item_take_of_lt {f : List Char → Nat} {p : Char → Bool} (hnil : f [] = 0)
    (hcons : ∀ c cs, f (c :: cs) = if p c then 1 else escape (c :: cs)) :
    ∀ {cs : List Char} {n : Nat}, n < f cs → n ≤ f (cs.take n) + 1
  | [], _, h => by omega
  | _ :: _, 0, _ => Nat.zero_le _
  | c :: cs, n + 1, h => by
      rw [hcons] at h
      split at h
      · omega
      · next hc =>
        have := escape_take_of_lt h
        rw [List.take_succ_cons] at this ⊢
        rwa [hcons, if_neg hc]

theorem nameItem_take_of_lt {cs : List Char} {n : Nat} (h : n < nameItem cs) :
    n ≤ nameItem (cs.take n) + 1 := item_take_of_lt rfl (fun _ _ => rfl) h

theorem nameStart_take_of_lt {cs : List Char} {n : Nat} (h : n < nameStart cs) :
    n ≤ nameStart (cs.take n) + 1 := item_take_of_lt rfl (fun _ _ => rfl) h

/-- A name has its first item whole. -/
theorem nameItem_le_name (cs : List Char) : nameItem cs ≤ name cs := by
  rw [name_eq]
  split <;> omega

/-- The induction takes one item of the name after another. -/
theorem name_take_of_lt {cs : List Char} {n : Nat} (h : n < name cs) :
    n ≤ name (cs.take n) + 1 := by
  induction hk : cs.length using Nat.strongRecOn generalizing cs n with
  | ind k ih =>
    by_cases hn : n < nameItem cs
    · exact Nat.le_trans (nameItem_take_of_lt hn) (Nat.succ_le_succ (nameItem_le_name _))
    · have hle := nameItem_le cs
      rw [name_eq cs] at h
      split at h
      · omega
      next h0 =>
      have hlen : (cs.drop (nameItem cs)).length < k := by
        rw [List.length_drop]
        omega
      have hrest := @ih _ hlen (cs.drop (nameItem cs)) (n - nameItem cs) (by omega) rfl
      rw [name_eq (cs.take n), nameItem_take (by omega), if_neg h0, List.drop_take]
      omega

/-- An identifier that is cut inside is a character shorter at most. -/
theorem identifier_take_of_lt {cs : List Char} {n : Nat} (h : n < identifier cs) :
    n ≤ identifier (cs.take n) + 1 := by
  by_cases hn : n < nameStart cs
  · exact Nat.le_trans (nameStart_take_of_lt hn) (Nat.succ_le_succ (nameStart_le_identifier _))
  · unfold identifier at h ⊢
    rw [nameStart_take (by omega)]
    split at h
    · omega
    · next k hk =>
      have := @name_take_of_lt (cs.drop (k + 1)) (n - (k + 1)) (by omega)
      rw [List.drop_take]
      omega

/-! ## Comments, strings and resources -/

/-- A comment that is closed stays so if text is appended, since its `*/` comes first. -/
theorem blockComment_append : ∀ {cs : List Char} (more : List Char),
    blockComment cs < cs.length → blockComment (cs ++ more) = blockComment cs
  | [], _, h => absurd h (Nat.lt_irrefl 0)
  | [c], _, h => by simp [blockComment] at h
  | c :: d :: cs, more, h => by
      rw [blockComment] at h
      rw [List.cons_append, blockComment, blockComment, List.cons_append, List.head?_cons,
        List.head?_cons]
      rw [List.head?_cons] at h
      split
      · rfl
      · next hc =>
        rw [if_neg hc, List.length_cons] at h
        have := @blockComment_append (d :: cs) more (by omega)
        rw [List.cons_append] at this
        rw [this]

theorem quoted_take_of_le (q : Char) {cs : List Char} {n : Nat} (h : n ≤ quoted q cs) :
    quoted q (cs.take n) = n := by
  fun_induction quoted q cs generalizing n with
  | case1 | case2 =>
    obtain rfl := Nat.le_zero.mp h
    rfl
  | case3 hc =>
    cases n with
    | zero => rfl
    | succ n =>
      obtain rfl : n = 0 := by omega
      exact quoted_dangling hc
  | case4 c cs hc ih =>
    rcases n with - | - | n
    · rfl
    · -- the backslash that is left escapes nothing, and belongs to the inside
      exact quoted_dangling hc
    · rw [List.take_succ_cons, List.take_succ_cons, quoted_escape hc rfl, ih (by omega)]
      omega
  | case5 c cs hc hb ih =>
    cases n with
    | zero => rfl
    | succ n =>
      rw [List.take_succ_cons, quoted_other hc hb, ih (by omega)]
      omega

/-- A closed string that is cut short is not closed any more. -/
theorem quotedClosed_take_of_lt {q : Char} {cs : List Char} {n : Nat} (h : n < quotedClosed q cs) :
    quotedClosed q (cs.take n) = n := by
  have hn : n ≤ quoted q cs := by
    simp only [quotedClosed] at h
    split at h <;> omega
  have hnil : (cs.take n).drop n = [] := List.drop_eq_nil_of_le (List.length_take_le ..)
  simp only [quotedClosed]
  rw [quoted_take_of_le q hn, hnil]
  rfl

end Extent

namespace Numeral

open Chars Extent

/-- A numeral that is cut short is a numeral still, also if it now ends with its point. -/
theorem chars_read_take_of_le {cs : List Char} {n : Nat} (h : n ≤ (read cs).1.chars.length) :
    (read (cs.take n)).1.chars.length = n := by
  by_cases hn : n ≤ run isDigit cs
  · have hdrop : (cs.take n).dropWhile isDigit = [] := by
      rw [dropWhile_eq_drop_run, run_take_of_le hn]
      exact List.drop_eq_nil_of_le (List.length_take_le ..)
    rw [read_no_point (by rw [hdrop]; exact fun h => nomatch h)]
    exact run_take_of_le hn
  · by_cases hp : (cs.dropWhile isDigit).head? = some '.'
    · obtain ⟨rest, hrest⟩ := List.head?_eq_some_iff.mp hp
      rw [read_point hrest] at h
      obtain ⟨m, rfl⟩ : ∃ m, n = run isDigit cs + (m + 1) :=
        ⟨n - run isDigit cs - 1, by omega⟩
      have htail := @dropWhile_take isDigit cs (run isDigit cs + (m + 1)) (by omega)
      rw [hrest, Nat.add_sub_cancel_left, List.take_succ_cons] at htail
      have hm : m ≤ run isDigit rest := by
        simp only [chars, List.length_append, List.length_cons] at h
        unfold run at h ⊢
        omega
      have hplaces := run_take_of_le hm
      have hwhole := @run_take isDigit cs (run isDigit cs + (m + 1)) (by omega)
      rw [read_point htail]
      simp only [chars, List.length_append, List.length_cons]
      unfold run at hplaces hwhole ⊢
      omega
    · rw [read_no_point hp] at h
      exact absurd h hn

end Numeral

namespace Lexeme

open Chars Extent

/-! ## Numbers -/

/-- A number that is cut inside reaches the cut, as another kind of number perhaps. -/
theorem numeric_take_of_lt {negative : Bool} {cs : List Char} {n : Nat}
    (h : negative.toNat + n < (numeric negative cs).length) :
    negative.toNat + n ≤ (numeric negative (cs.take n)).length := by
  have hle := numeral_length_le negative (cs.take n)
  by_cases hn : n ≤ (Numeral.read cs).1.chars.length
  · rwa [Numeral.chars_read_take_of_le hn] at hle
  simp only [numeric] at h ⊢
  rw [Numeral.read_take (by omega)]
  simp only
  split at h
  · simp only at h
    omega
  next hp =>
  rw [if_neg (head?_take_ne hp _)]
  split at h
  · simp only at h
    omega
  · simp only at h
    rw [letters_take_of_le (by omega), if_neg (by omega)]
    simp only
    omega

/-! ## Words -/

/-- The value of a resource that is cut inside ends at the cut. -/
theorem resource_take_of_lt : ∀ {cs : List Char} {n : Nat}, n < (resource cs).2 →
    (resource (cs.take n)).2 = n
  | [], n, h => absurd h (Nat.not_lt_zero n)
  | c :: cs, 0, _ => rfl
  | c :: cs, n + 1, h => by
      rw [List.take_succ_cons]
      rw [resource] at h ⊢
      split at h
      · next hq =>
        rw [if_pos hq, quotedClosed_take_of_lt (by simp only at h; omega)]
        exact Nat.add_comm 1 n
      · next hq =>
        have := @run_take_of_le (fun c => !isWhitespace c && c != ')') (c :: cs) (n + 1)
          (Nat.le_of_lt h)
        rw [List.take_succ_cons] at this
        rw [if_neg hq]
        exact this

/-- A resource that is cut short ends where it is cut, whichever of its parts that is. -/
theorem uri_take_of_lt {k : Nat} {cs : List Char} {n : Nat} (h : k + 1 + n < (uri k cs).length) :
    k + 1 + n ≤ (uri k (cs.take n)).length := by
  simp only [uri] at h ⊢
  by_cases hw : n ≤ whitespace cs
  · rw [whitespace_take_of_le hw]
    omega
  rw [whitespace_take (by omega), List.drop_take]
  by_cases hr : n - whitespace cs < (resource (cs.drop (whitespace cs))).2
  · rw [resource_take_of_lt hr]
    omega
  rw [resource_take (by omega), List.drop_take]
  have hb : n - whitespace cs - (resource (cs.drop (whitespace cs))).2 ≤
      whitespace ((cs.drop (whitespace cs)).drop (resource (cs.drop (whitespace cs))).2) := by
    split at h <;> omega
  rw [whitespace_take_of_le hb]
  omega

/-- What begins with a name reaches the cut, or the place before it. -/
theorem named_take_of_lt {cs : List Char} {n : Nat} (h : n < (named cs).length) :
    n ≤ (named (cs.take n)).length + 1 := by
  by_cases hn : n < name cs
  · exact Nat.le_trans (name_take_of_lt hn) (Nat.succ_le_succ (name_le_named_length _))
  have hname : name (cs.take n) = name cs := name_take (by omega)
  by_cases he : n = name cs
  · have := name_le_named_length (cs.take n)
    omega
  simp only [named] at h ⊢
  rw [hname, List.drop_take, List.take_take, Nat.min_eq_left (by omega), tail_take]
  split at h
  · next hp =>
    rw [head?_take_of_pos (by omega), if_pos hp]
    split at h
    · next hs =>
      have := @uri_take_of_lt (name cs) (cs.drop (name cs)).tail (n - name cs - 1) (by omega)
      rw [if_pos hs]
      omega
    · simp only at h
      omega
  · simp only at h
    omega

theorem rangeEnd_take_of_lt {cs : List Char} {n : Nat} (h : n < rangeEnd cs) :
    n ≤ rangeEnd (cs.take n) + 1 := by
  unfold rangeEnd at h
  split at h
  · next ds =>
    cases n with
    | zero => exact Nat.zero_le _
    | succ n =>
      rw [List.take_succ_cons, rangeEnd, hexDigits_take_of_le (by split at h <;> omega)]
      cases n with
      | zero => exact Nat.le_refl 1
      | succ n =>
        simp only
        omega
  · omega

/-- A range of code points that is cut short behind its first digit is still one. -/
theorem unicodeRange?_take_of_lt {cs : List Char} {n : Nat} {lx : Lexeme}
    (h : unicodeRange? cs = some lx) (hn : 3 ≤ n) (hlt : n < lx.length) :
    ∃ lx', unicodeRange? (cs.take n) = some lx' ∧ n ≤ lx'.length + 1 := by
  unfold unicodeRange? at h
  split at h
  · next ds =>
    obtain ⟨m, rfl⟩ : ∃ m, n = m + 2 := ⟨n - 2, by omega⟩
    rw [List.take_succ_cons, List.take_succ_cons, unicodeRange?]
    split at h
    · cases h
    next k hk =>
    obtain rfl := Option.some.inj h
    simp only at hlt
    by_cases hm : m ≤ k + 1
    · obtain ⟨j, rfl⟩ : ∃ j, m = j + 1 := ⟨m - 1, by omega⟩
      rw [hexDigits_take_of_le (hk ▸ hm)]
      exact ⟨_, rfl, by simp only; omega⟩
    · have hend := @rangeEnd_take_of_lt (ds.drop (k + 1)) (m - (k + 1)) (by omega)
      rw [hexDigits_take (by omega), hk]
      refine ⟨_, rfl, ?_⟩
      simp only
      rw [List.drop_take]
      omega
  · cases h

/-- The same with ranges of code points, for which three characters must be left. -/
theorem word_take_of_lt {cs : List Char} {n : Nat} (hn : 3 ≤ n) (h : n < (word cs).length) :
    n ≤ (word (cs.take n)).length + 1 := by
  unfold word at *
  cases hu : unicodeRange? cs with
  | none =>
    rw [hu] at h
    rw [unicodeRange?_take (by simp [hu]), hu]
    exact named_take_of_lt h
  | some lx =>
    rw [hu] at h
    obtain ⟨lx', hlx', hle⟩ := unicodeRange?_take_of_lt hu hn h
    rwa [hlx']

/-! ## Tokens after a mark

At least three characters are kept behind the mark, so the tests of a rule find what they found
before, and a token of four characters or fewer is not cut. -/

/-- A token is found that goes up to the last two of `n` characters and the mark before them. -/
def Reaches (found : Option Lexeme) (n : Nat) : Prop :=
  ∃ lx, found = some lx ∧ n ≤ lx.length + 1

/-- What is counted behind the mark goes that far if the count does, up to one character less. -/
theorem reaches_counted? {kind : Kind} {m n : Nat} {payload : Payload Span} (hn : 3 ≤ n)
    (h : n ≤ m + 1) : Reaches (counted? kind m payload) n := by
  obtain ⟨k, rfl⟩ : ∃ k, m = k + 1 := ⟨m - 1, by omega⟩
  exact ⟨_, rfl, by simp only; omega⟩

/-- What is longer than `n` characters behind the mark has counted more than these. -/
theorem lt_of_counted? {kind : Kind} {m n : Nat} {payload : Payload Span} {lx : Lexeme}
    (h : counted? kind m payload = some lx) (hlt : n + 1 < lx.length) : n < m := by
  obtain ⟨k, rfl, rfl⟩ := exists_of_counted? h
  simp only at hlt
  omega

theorem reaches_variableName? {cs : List Char} {n : Nat} (hn : 3 ≤ n) {lx : Lexeme}
    (h : variableName? cs = some lx) (hlt : n + 1 < lx.length) :
    Reaches (variableName? (cs.take n)) n := by
  by_cases hb : cs.head? = some '{'
  · obtain ⟨ds, rfl⟩ := List.head?_eq_some_iff.mp hb
    obtain ⟨m, rfl⟩ : ∃ m, n = m + 1 := ⟨n - 1, by omega⟩
    obtain rfl := Option.some.inj h
    have hm : m ≤ run (· != '}') ds := by
      simp only at hlt
      split at hlt <;> omega
    rw [List.take_succ_cons, variableName?, run_take_of_le hm]
    exact ⟨_, rfl, by simp only; omega⟩
  · rw [variableName?_of_ne hb] at h
    rw [variableName?_of_ne (head?_take_ne hb n)]
    refine reaches_counted? hn ?_
    rw [letters_take_of_le (Nat.le_of_lt (lt_of_counted? h hlt))]
    exact Nat.le_succ n

theorem reaches_minus? {cs : List Char} {n : Nat} (hn : 3 ≤ n) {lx : Lexeme}
    (h : minus? cs = some lx) (hlt : n + 1 < lx.length) : Reaches (minus? (cs.take n)) n := by
  unfold minus? at *
  rw [List.take_take, Nat.min_eq_left (by omega), head?_take_of_pos (by omega)]
  split at h
  · obtain rfl := Option.some.inj h
    simp only at hlt
    omega
  next hc =>
  rw [if_neg hc]
  split at h
  · next hd =>
    obtain rfl := Option.some.inj h
    have := @numeric_take_of_lt true cs n (by rw [Bool.toNat_true]; omega)
    rw [Bool.toNat_true] at this
    rw [if_pos hd]
    exact ⟨_, rfl, by omega⟩
  · next hd =>
    rw [if_neg hd]
    exact reaches_counted? hn (name_take_of_lt (lt_of_counted? h hlt))

/-- A line comment.  A block comment that is cut short may lose its `*/`, and with it the
announcement of one. -/
theorem reaches_comment? {o : Options} {cs : List Char} {n : Nat} (hn : 3 ≤ n) {lx : Lexeme}
    (hb : cs.head? ≠ some '*') (h : comment? o cs = some lx) (hlt : n + 1 < lx.length) :
    Reaches (comment? o (cs.take n)) n := by
  unfold comment? at h
  split at h
  · next ds =>
    obtain ⟨m, rfl⟩ : ∃ m, n = m + 1 := ⟨n - 1, by omega⟩
    obtain rfl := Option.some.inj h
    simp only [lineComment] at hlt
    have hline : line (ds.take m) = m := run_take_of_le (by unfold line at hlt; omega)
    rw [List.take_succ_cons, comment?, lineComment, hline]
    exact ⟨_, rfl, by simp only; omega⟩
  · exact absurd rfl hb
  · cases h

/-! ## The next token -/

/-- **What a mark begins** reaches the cut, or the place before it, unless it is a block comment. -/
theorem reaches_marked? {o : Options} {c : Char} {cs : List Char} {n : Nat} (hn : 3 ≤ n)
    {lx : Lexeme} (hb : c = '/' → cs.head? ≠ some '*') (h : marked? o c cs = some lx)
    (hlt : n + 1 < lx.length) : Reaches (marked? o c (cs.take n)) n := by
  unfold marked? at *
  split at h
  · exact reaches_comment? hn (hb rfl) h hlt
  · exact reaches_counted? hn (identifier_take_of_lt (lt_of_counted? h hlt))
  · exact reaches_counted? hn (name_take_of_lt (lt_of_counted? h hlt))
  · exact reaches_variableName? hn h hlt
  · exact reaches_minus? hn h hlt
  · unfold cdataOpen? at h
    split at h
    · obtain rfl := Option.some.inj h
      simp only at hlt
      omega
    · cases h
  · split at h
    · obtain rfl := Option.some.inj h
      simp only [operator] at hlt
      omega
    · cases h
  · split at h
    · obtain rfl := Option.some.inj h
      simp only [operator] at hlt
      omega
    · cases h
  · cases h

/-- **A token that is cut short leaves at most two characters over.** -/
theorem reaches_attempt? {o : Options} {c : Char} {cs : List Char} {n : Nat} (hn : 3 ≤ n)
    {lx : Lexeme} (hb : c = '/' → cs.head? ≠ some '*') (h : attempt? o c cs = some lx)
    (hlt : n + 1 < lx.length) : Reaches (attempt? o c (cs.take n)) n := by
  -- one case for each class of the first character, which the cut does not change
  have hcons : (c :: cs).take (n + 1) = c :: cs.take n := List.take_succ_cons
  unfold attempt? at *
  split at h
  · next hw =>
    obtain rfl := Option.some.inj h
    simp only at hlt
    rw [if_pos hw, whitespace_take_of_le (by omega)]
    exact ⟨_, rfl, by simp only; omega⟩
  next hw =>
  rw [if_neg hw]
  split at h
  · next hd =>
    obtain rfl := Option.some.inj h
    have hle := @numeric_take_of_lt false (c :: cs) (n + 1) (by simpa using hlt)
    rw [Bool.toNat_false] at hle
    rw [if_pos hd, ← hcons]
    exact ⟨_, rfl, by omega⟩
  next hd =>
  rw [if_neg hd]
  split at h
  · obtain rfl := Option.some.inj h
    simp only [delimiter] at hlt
    omega
  next hc =>
  rw [if_neg hc]
  split at h
  · next hs =>
    obtain rfl := Option.some.inj h
    have hle := word_take_of_lt (by omega) hlt
    rw [if_pos hs, ← hcons]
    exact ⟨_, rfl, by omega⟩
  next hs =>
  rw [if_neg hs]
  split at h
  · next hq =>
    obtain rfl := Option.some.inj h
    simp only [Lexeme.quoted] at hlt
    rw [if_pos hq, Lexeme.quoted, quotedClosed_take_of_lt (by omega)]
    exact ⟨_, rfl, by simp only; omega⟩
  next hq =>
  rw [if_neg hq]
  exact reaches_marked? hn hb h hlt

/-- A block comment, split or not, that ends three characters before the end is closed, and it stays
as it is. -/
theorem blockComment_append {o : Options} {cs : List Char} (more : List Char)
    (h : (blockComment o cs).length + 2 ≤ cs.length + 1) :
    blockComment o (cs ++ more) = blockComment o cs := by
  have hlt : Extent.blockComment cs < cs.length := by
    have hle : 2 + Extent.blockComment cs ≤ (blockComment o cs).length := by
      simp only [blockComment]
      split
      · exact Nat.le_refl _
      · exact Nat.le_add_right ..
    omega
  have heq := Extent.blockComment_append more hlt
  have hlt' : Extent.blockComment (cs ++ more) < (cs ++ more).length := by
    rw [heq, List.length_append]
    omega
  cases ho : o.commentMarkers with
  | true => rw [blockComment_of_closed ho hlt, blockComment_of_closed ho hlt', heq]
  | false =>
    rw [blockComment_of_whole ho, blockComment_of_whole ho, if_pos hlt, if_pos hlt', heq]

theorem leading_append_of_ne {c : Char} {cs : List Char} (more : List Char)
    (hb : c = '/' → (cs ++ more).head? ≠ some '*')
    (h : (leading {} c cs).length + 2 ≤ cs.length) :
    leading {} c (cs ++ more) = leading {} c cs := by
  have htake : (cs ++ more).take cs.length = cs := List.take_left
  have hthree : 3 ≤ cs.length := by
    have := (leading_length {} c cs).1
    omega
  have hlen : (leading {} c (cs ++ more)).length ≤ cs.length + 1 := by
    refine Nat.le_of_not_lt fun hlt => ?_
    unfold leading at h hlt
    cases hlx : attempt? {} c (cs ++ more) with
    | none =>
      rw [hlx] at hlt
      simp only [Option.getD_none, operator] at hlt
      omega
    | some lx =>
      rw [hlx] at hlt
      obtain ⟨lx', hlx', hle⟩ := reaches_attempt? hthree hb hlx hlt
      rw [htake] at hlx'
      rw [hlx'] at h
      simp only [Option.getD_some] at h
      omega
  rw [← leading_take rfl hlen, htake]

/-- **A token looks at most three characters past its end**: if they are there, text that is
appended does not change it. -/
theorem leading_append {o : Options} {c : Char} {cs : List Char} (more : List Char)
    (h : (leading o c cs).length + 2 ≤ cs.length) :
    leading o c (cs ++ more) = leading o c cs := by
  have hhead : (cs ++ more).head? = cs.head? := by
    cases cs with
    | nil => exact absurd (Nat.le_trans (Nat.le_add_left ..) h) (Nat.not_succ_le_zero 1)
    | cons => rfl
  by_cases hc : c = '/' ∧ cs.head? = some '*'
  · obtain ⟨rfl, hstar⟩ := hc
    obtain ⟨ds, rfl⟩ := List.head?_eq_some_iff.mp hstar
    exact blockComment_append more h
  · have hb : c = '/' → cs.head? ≠ some '*' := fun h1 h2 => hc ⟨h1, h2⟩
    have hb' : c = '/' → (cs ++ more).head? ≠ some '*' := hhead ▸ hb
    rw [leading_congr o {} hb] at h ⊢
    rw [leading_congr o {} hb', leading_append_of_ne more hb' h]

end Lexeme

end StyleLex
