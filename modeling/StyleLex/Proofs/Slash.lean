import StyleLex.Proofs.Lookahead
import StyleLex.Proofs.TokenShape

/-!
# Proofs/Slash — what follows a slash behind a token

`leading_of_sameToSlash`: a token does not depend on what follows a slash behind it.

For the token to depend on it, one of the two texts would have to begin with a longer token, which
goes past the slash.  But a token can be cut behind any slash in it and is a token still
(`length_leading_take_of_slash`), and this shorter one both texts have.

Most tokens can be cut anywhere, and of those that cannot, some hold no slash.  What remains are the
names, where a slash is the last character of an escape (`Extent.item_slash`).
-/

namespace StyleLex

namespace Extent

open Chars Grammar

/-! ## Names -/

/-- **A slash in an item of a name is its last character.** -/
theorem item_slash {f : List Char → Nat} {p : Char → Bool} (hnil : f [] = 0)
    (hcons : ∀ c cs, f (c :: cs) = if p c then 1 else escape (c :: cs)) {cs : List Char} {n : Nat}
    (hle : f cs ≤ cs.length) (hs : cs[n]? = some '/') (hn : n < f cs) : n + 1 = f cs := by
  have hitem := @item_take_item f p hnil hcons cs (Nat.zero_lt_of_lt hn)
  have hlen := List.length_take_of_le hle
  have hs' : (cs.take (f cs))[n]? = some '/' := by rwa [List.getElem?_take_of_lt hn]
  generalize cs.take (f cs) = item at hitem hlen hs'
  cases hitem with
  | char =>
    rw [List.length_singleton] at hlen
    omega
  | code hds =>
    cases n with
    | zero => exact absurd (Option.some.inj hs') (by decide)
    | succ n =>
      have hmem := List.mem_of_getElem? (List.getElem?_cons_succ ▸ hs')
      exact absurd (hds.digits '/' hmem) (by decide)
  | escaped =>
    cases n with
    | zero => exact absurd (Option.some.inj hs') (by decide)
    | succ n =>
      rw [List.length_cons, List.length_singleton] at hlen
      omega

/-- **A name that is cut behind a slash** loses nothing else.  The induction takes one item of the
name after another. -/
theorem name_take_of_slash {cs : List Char} {n : Nat} (hs : cs[n]? = some '/') (h : n < name cs) :
    name (cs.take (n + 1)) = n + 1 := by
  induction hk : cs.length using Nat.strongRecOn generalizing cs n with
  | ind k ih =>
    have hle := nameItem_le cs
    rw [name_eq cs] at h
    split at h
    · exact absurd h (Nat.not_lt_zero n)
    next h0 =>
    by_cases hn : n < nameItem cs
    · have hend : n + 1 = nameItem cs := item_slash rfl (fun _ _ => rfl) hle hs hn
      rw [hend, name_eq, nameItem_take (Nat.le_refl _), if_neg h0, List.drop_take, Nat.sub_self,
        List.take_zero]
      rfl
    · have hlen : (cs.drop (nameItem cs)).length < k := by
        rw [List.length_drop]
        omega
      have hs' : (cs.drop (nameItem cs))[n - nameItem cs]? = some '/' := by
        rwa [List.getElem?_drop, Nat.add_sub_cancel' (Nat.le_of_not_lt hn)]
      have hrest := ih _ hlen hs' (by omega) rfl
      have hsub : n + 1 - nameItem cs = n - nameItem cs + 1 := by omega
      rw [name_eq, nameItem_take (by omega), if_neg h0, List.drop_take, hsub, hrest]
      omega

/-- A name that goes on behind a slash has it escaped, so it fills what is before and the slash. -/
theorem le_name_take_of_slash {cs : List Char} {n : Nat} (hs : cs[n]? = some '/')
    (h : n < name cs) : n + 1 ≤ name (cs.take (n + 1)) :=
  Nat.le_of_eq (name_take_of_slash hs h).symm

theorem identifier_take_of_slash {cs : List Char} {n : Nat} (hs : cs[n]? = some '/')
    (h : n < identifier cs) : n + 1 ≤ identifier (cs.take (n + 1)) := by
  by_cases hn : n < nameStart cs
  · have hend : n + 1 = nameStart cs := item_slash rfl (fun _ _ => rfl) (nameStart_le cs) hs hn
    have hle := nameStart_le_identifier (cs.take (n + 1))
    rwa [nameStart_take (Nat.le_of_eq hend.symm), ← hend] at hle
  · unfold identifier at h ⊢
    rw [nameStart_take (by omega)]
    split at h
    · exact absurd h (Nat.not_lt_zero n)
    · next k hk =>
      have hs' : (cs.drop (k + 1))[n - (k + 1)]? = some '/' := by
        rwa [List.getElem?_drop, Nat.add_sub_cancel' (by omega)]
      have hrest := name_take_of_slash hs' (by omega)
      have hsub : n + 1 - (k + 1) = n - (k + 1) + 1 := by omega
      rw [List.drop_take, hsub, hrest]
      omega

/-! ## Comments -/

/-- A block comment that is cut short, be it inside its `*/`, is not closed any more. -/
theorem blockComment_take_of_le {cs : List Char} {n : Nat} (h : n ≤ blockComment cs + 1)
    (hlen : n ≤ cs.length) : blockComment (cs.take n) = n := by
  fun_induction blockComment cs generalizing n with
  | case1 =>
    obtain rfl := Nat.le_zero.mp hlen
    rfl
  | case2 c cs hc =>
    rcases n with - | - | n
    · rfl
    · -- the cut is between the `*` and the `/`
      rw [List.take_succ_cons, List.take_zero, blockComment, if_neg (by simp)]
      rfl
    · omega
  | case3 c cs hc ih =>
    cases n with
    | zero => rfl
    | succ n =>
      have hc' : ¬(c = '*' ∧ (cs.take n).head? = some '/') := by
        rintro ⟨rfl, hhead⟩
        exact head?_take_ne (fun hslash => hc ⟨rfl, hslash⟩) n hhead
      rw [List.take_succ_cons, blockComment, if_neg hc',
        ih (by omega) (Nat.le_of_succ_le_succ hlen), Nat.add_comm]

end Extent

namespace Lexeme

open Chars Extent Grammar

/-! ## Tokens

In what follows `n + 1` characters are kept, the last of them being a slash.  A mark that stands
before them is kept as well. -/

/-- A token is found that has at least `n` characters. -/
def Fills (found : Option Lexeme) (n : Nat) : Prop := ∃ lx, found = some lx ∧ n ≤ lx.length

/-- A resource that goes on behind the cut fills what is before it. -/
theorem le_uri_take {k : Nat} {cs : List Char} {n : Nat} (h : k + 1 + n ≤ (uri k cs).length) :
    k + 1 + n ≤ (uri k (cs.take n)).length := by
  obtain hlt | heq := Nat.lt_or_eq_of_le h
  · exact uri_take_of_lt hlt
  · rwa [uri_take (Nat.le_of_eq heq.symm)]

/-- What begins with a name fills the text up to the slash, if it goes on behind it. -/
theorem named_take_of_slash {cs : List Char} {n : Nat} (hs : cs[n]? = some '/')
    (h : n < (named cs).length) : n + 1 ≤ (named (cs.take (n + 1))).length := by
  by_cases hn : n < name cs
  · have hle := name_le_named_length (cs.take (n + 1))
    rwa [name_take_of_slash hs hn] at hle
  simp only [named] at h ⊢
  split at h
  · next hp =>
    have hne : n ≠ name cs := fun heq => by
      rw [List.head?_drop, ← heq, hs] at hp
      cases hp
    rw [name_take (by omega), List.drop_take, List.take_take, Nat.min_eq_left (by omega), tail_take,
      head?_take_of_pos (by omega), if_pos hp]
    split at h
    · next hscheme =>
      have hle := @le_uri_take (name cs) (cs.drop (name cs)).tail (n - name cs) (by omega)
      have hsub : n + 1 - name cs - 1 = n - name cs := by omega
      rw [if_pos hscheme, hsub]
      omega
    · simp only at h
      omega
  · exact absurd h hn

/-- **A range of code points holds no slash.** -/
theorem slash_notMem_unicodeRange {cs : List Char} {lx : Lexeme}
    (h : unicodeRange? cs = some lx) : '/' ∉ cs.take lx.length := by
  unfold unicodeRange? at h
  split at h
  · next ds =>
    split at h
    · cases h
    next k hk =>
    obtain rfl := Option.some.inj h
    have hshape := shaped_unicodeRange hk
    unfold Shaped at hshape
    generalize ('u' :: '+' :: ds).take _ = text at hshape ⊢
    have hcode : ∀ {code : List Char}, HexCode code → '/' ∉ code := fun hcode hmem =>
      absurd (hcode.digits '/' hmem) (by decide)
    cases hshape with
    | unicodeRange hfirst hrest =>
      rcases hrest with rfl | ⟨last, hlast, rfl⟩
      · simpa using hcode hfirst
      · simpa using ⟨hcode hfirst, hcode hlast⟩
  · cases h

theorem word_take_of_slash {cs : List Char} {n : Nat} (hs : cs[n]? = some '/')
    (h : n < (word cs).length) : n + 1 ≤ (word (cs.take (n + 1))).length := by
  unfold word at *
  cases hu : unicodeRange? cs with
  | none =>
    rw [hu] at h
    rw [unicodeRange?_take (by simp [hu]), hu]
    exact named_take_of_slash hs h
  | some lx =>
    rw [hu] at h
    have hmem : '/' ∈ cs.take lx.length :=
      List.mem_of_getElem? ((List.getElem?_take_of_lt h).trans hs)
    exact absurd hmem (slash_notMem_unicodeRange hu)

/-! ## Tokens after a mark -/

/-- What is counted behind the mark fills what is left of it if the count does. -/
theorem fills_counted? {kind : Kind} {m n : Nat} {payload : Payload Span} (h : n + 1 ≤ m) :
    Fills (counted? kind m payload) (n + 2) := by
  obtain ⟨k, rfl⟩ : ∃ k, m = k + 1 := ⟨m - 1, by omega⟩
  exact ⟨_, rfl, by simp only; omega⟩

theorem fills_variableName? {cs : List Char} {n : Nat} {lx : Lexeme}
    (h : variableName? cs = some lx) (hlt : n + 2 < lx.length) :
    Fills (variableName? (cs.take (n + 1))) (n + 2) := by
  by_cases hb : cs.head? = some '{'
  · obtain ⟨ds, rfl⟩ := List.head?_eq_some_iff.mp hb
    obtain rfl := Option.some.inj h
    have hn : n ≤ run (· != '}') ds := by
      simp only at hlt
      split at hlt <;> omega
    rw [List.take_succ_cons, variableName?, run_take_of_le hn]
    exact ⟨_, rfl, Nat.le_trans (Nat.le_of_eq (Nat.add_comm n 2)) (Nat.le_add_right ..)⟩
  · rw [variableName?_of_ne hb] at h
    rw [variableName?_of_ne (head?_take_ne hb (n + 1))]
    have hle := Nat.le_of_lt (lt_of_counted? h hlt)
    exact fills_counted? (Nat.le_of_eq (letters_take_of_le hle).symm)

theorem fills_minus? {cs : List Char} {n : Nat} (hs : cs[n]? = some '/') {lx : Lexeme}
    (h : minus? cs = some lx) (hlt : n + 2 < lx.length) :
    Fills (minus? (cs.take (n + 1))) (n + 2) := by
  unfold minus? at *
  split at h
  · next hc =>
    obtain rfl := Option.some.inj h
    obtain rfl : n = 0 := by simp only at hlt; omega
    have hdash := congrArg (·[0]?) hc
    rw [List.getElem?_take_of_lt Nat.two_pos, hs] at hdash
    exact absurd hdash (by decide)
  next hc =>
  rw [if_neg (take_take_ne hc rfl _), head?_take_of_pos (Nat.succ_pos n)]
  split at h
  · next hd =>
    obtain rfl := Option.some.inj h
    have hle := @numeric_take_of_lt true cs (n + 1) (by rw [Bool.toNat_true]; omega)
    rw [Bool.toNat_true] at hle
    rw [if_pos hd]
    exact ⟨_, rfl, by omega⟩
  · next hd =>
    rw [if_neg hd]
    exact fills_counted? (le_name_take_of_slash hs (Nat.lt_of_succ_lt (lt_of_counted? h hlt)))

/-- A comment that goes on behind the cut fills what is before it. -/
theorem fills_comment? {cs : List Char} {n : Nat} {lx : Lexeme} (h : comment? {} cs = some lx)
    (hlt : n + 2 < lx.length) : Fills (comment? {} (cs.take (n + 1))) (n + 2) := by
  unfold comment? at h
  split at h
  · next ds =>
    obtain rfl := Option.some.inj h
    have hline : line (ds.take n) = n := run_take_of_le (by
      simp only [lineComment, line] at hlt
      omega)
    rw [List.take_succ_cons, comment?, lineComment, hline]
    exact ⟨_, rfl, Nat.le_of_eq (Nat.add_comm n 2)⟩
  · next ds =>
    obtain rfl := Option.some.inj h
    rw [List.take_succ_cons, comment?]
    refine ⟨_, rfl, ?_⟩
    rw [blockComment_of_whole rfl] at hlt ⊢
    have hin : Extent.blockComment (ds.take n) = n := by
      have hle := blockComment_le ds
      simp only at hlt
      split at hlt
      · next hclosed =>
        have hle' := blockComment_add_two_le hclosed
        exact blockComment_take_of_le (by omega) (by omega)
      · exact blockComment_take_of_le (by omega) (by omega)
    rw [hin]
    exact Nat.le_trans (Nat.le_of_eq (Nat.add_comm n 2)) (Nat.le_add_right ..)
  · cases h

/-! ## The next token -/

theorem fills_marked? {c : Char} {cs : List Char} {n : Nat} (hs : cs[n]? = some '/') {lx : Lexeme}
    (h : marked? {} c cs = some lx) (hlt : n + 2 < lx.length) :
    Fills (marked? {} c (cs.take (n + 1))) (n + 2) := by
  unfold marked? at *
  split at h
  · exact fills_comment? h hlt
  · exact fills_counted? (identifier_take_of_slash hs (Nat.lt_of_succ_lt (lt_of_counted? h hlt)))
  · exact fills_counted? (le_name_take_of_slash hs (Nat.lt_of_succ_lt (lt_of_counted? h hlt)))
  · exact fills_variableName? h hlt
  · exact fills_minus? hs h hlt
  · unfold cdataOpen? at h
    split at h
    · next hc =>
      obtain rfl := Option.some.inj h
      have hn : n < 3 := Nat.lt_of_succ_lt (Nat.lt_of_succ_lt_succ hlt)
      have hmem : '/' ∈ cs.take 3 :=
        List.mem_of_getElem? ((List.getElem?_take_of_lt hn).trans hs)
      rw [hc] at hmem
      exact absurd hmem (by decide)
    · cases h
  · split at h
    · obtain rfl := Option.some.inj h
      simp only [operator] at hlt
      omega
    · cases h
  · split at h
    · obtain rfl := Option.some.inj h
      simp only [operator] at hlt
      omega
    · cases h
  · cases h

/-- **Whatever is begun** and goes on behind a slash fills the text up to it. -/
theorem fills_attempt? {c : Char} {cs : List Char} {n : Nat} (hs : cs[n]? = some '/') {lx : Lexeme}
    (h : attempt? {} c cs = some lx) (hlt : n + 2 < lx.length) :
    Fills (attempt? {} c (cs.take (n + 1))) (n + 2) := by
  -- one case for each class of the first character, in the order in which they are tried
  have hcons : (c :: cs).take (n + 2) = c :: cs.take (n + 1) := List.take_succ_cons
  unfold attempt? at *
  split at h
  · next hw =>
    obtain rfl := Option.some.inj h
    simp only at hlt
    rw [if_pos hw, whitespace_take_of_le (by omega)]
    exact ⟨_, rfl, Nat.le_of_eq (Nat.add_comm (n + 1) 1)⟩
  next hw =>
  rw [if_neg hw]
  split at h
  · next hd =>
    obtain rfl := Option.some.inj h
    have hle := @numeric_take_of_lt false (c :: cs) (n + 2) (by simpa using hlt)
    rw [Bool.toNat_false, Nat.zero_add] at hle
    rw [if_pos hd, ← hcons]
    exact ⟨_, rfl, hle⟩
  next hd =>
  rw [if_neg hd]
  split at h
  · obtain rfl := Option.some.inj h
    simp only [delimiter] at hlt
    omega
  next hc =>
  rw [if_neg hc]
  split at h
  · next hn =>
    obtain rfl := Option.some.inj h
    have hs' : (c :: cs)[n + 1]? = some '/' := List.getElem?_cons_succ.trans hs
    rw [if_pos hn, ← hcons]
    exact ⟨_, rfl, word_take_of_slash hs' (Nat.lt_of_succ_lt hlt)⟩
  next hn =>
  rw [if_neg hn]
  split at h
  · next hq =>
    obtain rfl := Option.some.inj h
    simp only [Lexeme.quoted] at hlt
    rw [if_pos hq, Lexeme.quoted, quotedClosed_take_of_lt (by omega)]
    exact ⟨_, rfl, Nat.le_of_eq (Nat.add_comm (n + 1) 1)⟩
  next hq =>
  rw [if_neg hq]
  exact fills_marked? hs h hlt

/-- **A token can be cut behind any slash in it.** -/
theorem le_length_leading_take_of_slash {c : Char} {cs : List Char} {n : Nat}
    (hs : cs[n]? = some '/') (h : n + 2 < (leading {} c cs).length) :
    n + 2 ≤ (leading {} c (cs.take (n + 1))).length := by
  unfold leading at h ⊢
  cases hlx : attempt? {} c cs with
  | none =>
    rw [hlx] at h
    exact absurd h (by simp [operator])
  | some lx =>
    rw [hlx] at h
    obtain ⟨lx', hlx', hle⟩ := fills_attempt? hs hlx h
    rwa [hlx']

/-- **What follows a slash behind a token does not matter to it.** -/
theorem leading_append_slash {c : Char} {cs x : List Char} (y : List Char)
    (h : (leading {} c (cs ++ '/' :: x)).length ≤ cs.length + 1) :
    leading {} c (cs ++ '/' :: y) = leading {} c (cs ++ '/' :: x) := by
  have htake : ∀ z, (cs ++ '/' :: z).take (cs.length + 1) = cs ++ ['/'] := fun z =>
    List.take_length_add_append 1
  have hx := leading_take rfl (Nat.le_succ_of_le h)
  rw [htake x] at hx
  have hy : (leading {} c (cs ++ '/' :: y)).length ≤ cs.length + 1 + 1 := by
    refine Nat.le_of_not_lt fun hlt => ?_
    have hs : (cs ++ '/' :: y)[cs.length]? = some '/' := by
      rw [List.getElem?_append_right (Nat.le_refl _), Nat.sub_self]
      rfl
    have hle := le_length_leading_take_of_slash hs hlt
    rw [htake y, hx] at hle
    exact absurd (Nat.le_trans hle h) (Nat.not_succ_le_self _)
  rw [← leading_take rfl hy, htake y, hx]

/-- Two texts that are the same up to a slash, if they are not the same altogether. -/
inductive SameToSlash : List Char → List Char → Prop where
  | refl (cs : List Char) : SameToSlash cs cs
  | slash (cs x y : List Char) : SameToSlash (cs ++ '/' :: x) (cs ++ '/' :: y)

theorem SameToSlash.append_left (cs : List Char) {x y : List Char} (h : SameToSlash x y) :
    SameToSlash (cs ++ x) (cs ++ y) := by
  cases h with
  | refl => exact .refl _
  | slash ds x y =>
    rw [← List.append_assoc, ← List.append_assoc]
    exact .slash (cs ++ ds) x y

theorem leading_append_of_sameToSlash {c : Char} {cs x y : List Char} (h : SameToSlash x y)
    (hlen : (leading {} c (cs ++ x)).length = cs.length + 1) :
    leading {} c (cs ++ y) = leading {} c (cs ++ x) := by
  cases h with
  | refl => rfl
  | slash ds x y =>
    rw [← List.append_assoc] at hlen ⊢
    rw [← List.append_assoc]
    refine leading_append_slash y ?_
    rw [hlen, List.length_append]
    omega

/-- **A token stays as it is** if the text behind it changes behind a slash only. -/
theorem leading_of_sameToSlash {c : Char} {cs y : List Char}
    (h : SameToSlash ((c :: cs).drop (leading {} c cs).length) y) :
    ∃ ds, (c :: cs).take (leading {} c cs).length ++ y = c :: ds ∧
      leading {} c ds = leading {} c cs := by
  obtain ⟨hpos, hle⟩ := leading_length {} c cs
  obtain ⟨n, hn⟩ : ∃ n, (leading {} c cs).length = n + 1 := ⟨_, (Nat.sub_add_cancel hpos).symm⟩
  rw [hn] at h hle ⊢
  rw [List.drop_succ_cons] at h
  refine ⟨cs.take n ++ y, by rw [List.take_succ_cons, List.cons_append], ?_⟩
  have heq := @leading_append_of_sameToSlash c (cs.take n) _ y h
  rw [List.take_append_drop, hn, List.length_take_of_le (Nat.le_of_succ_le_succ hle)] at heq
  exact heq rfl

end Lexeme

end StyleLex
