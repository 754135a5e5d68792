import StyleLex.Proofs.Truncation

/-!
# Proofs/Grammar — what a scanner has found

The scanners of `Extent` count characters.  `Grammar` says which lists of characters may be counted,
without counting them: codes in hexadecimal, names made of items, insides of comments and strings,
and resources.  Each scanner is sound: what it counts at the beginning of a list is of its form
(`…_take_…`).  The numerals that `Numeral.read` finds are `Numeral.Valid`.

A form is a relation and not a second scanner.  It says nothing of where a scanner has to stop.
-/

namespace StyleLex

open Chars

namespace Grammar

/-! ## The forms -/

/-- A mark that may be missing, as one that closes a construct may be at the end of the text. -/
inductive Optional (mark : List Char) : List Char → Prop where
  | absent : Optional mark []
  | present : Optional mark mark

/-- **A code point in hexadecimal**: up to six digits. -/
structure HexCode (cs : List Char) : Prop where
  ne_nil : cs ≠ []
  length_le : cs.length ≤ 6
  digits : ∀ c ∈ cs, isHexDigit c = true

/-- **An item of a name**: a character of the class `p`, or an escape. -/
inductive Item (p : Char → Bool) : List Char → Prop where
  | char {c : Char} (hc : p c = true) : Item p [c]
  | code {ds : List Char} (hds : HexCode ds) : Item p ('\\' :: ds)
  | escaped {c : Char} (hhex : isHexDigit c = false) (hline : isLineEnd c = false) :
      Item p ['\\', c]

/-- Items that can continue a name, any number of them. -/
inductive Items : List Char → Prop where
  | nil : Items []
  | cons {item rest : List Char} (head : Item isName item) (tail : Items rest) :
      Items (item ++ rest)

/-- **A name.** -/
structure Name (cs : List Char) : Prop where
  ne_nil : cs ≠ []
  items : Items cs

/-- **An identifier**: a name whose first item can begin one. -/
inductive Identifier : List Char → Prop where
  | mk {item rest : List Char} (head : Item isNameStart item) (tail : Items rest) :
      Identifier (item ++ rest)

/-- **A name that stands without a mark**: its first item is no escape and no white space. -/
inductive Word : List Char → Prop where
  | mk {c : Char} {rest : List Char} (hw : isWhitespace c = false) (hc : isNameStart c = true)
      (tail : Items rest) : Word (c :: rest)

/-- **The inside of a string**: the quote and the ends of lines stand behind a backslash only. -/
inductive Inside (q : Char) : List Char → Prop where
  | nil : Inside q []
  | plain {c : Char} {cs : List Char} (hq : c ≠ q) (hline : isLineEnd c = false) (hb : c ≠ '\\')
      (tail : Inside q cs) : Inside q (c :: cs)
  | escaped {c : Char} {cs : List Char} (tail : Inside q cs) : Inside q ('\\' :: c :: cs)

/-- **A string and its value.**  The quote that closes it may be missing, and then the value may end
with a backslash that has nothing to escape. -/
inductive Quoted (q : Char) : (text value : List Char) → Prop where
  | inside {value close : List Char} (hv : Inside q value) (hclose : Optional [q] close) :
      Quoted q (q :: (value ++ close)) value
  | dangling {value : List Char} (hv : Inside q value) :
      Quoted q (q :: (value ++ ['\\'])) (value ++ ['\\'])

/-- **A resource and its value**, which is bare or quoted. -/
inductive Resource : (text value : List Char) → Prop where
  | bare {value : List Char} (hq : ∀ c ∈ value.head?, isQuote c = false)
      (hv : ∀ c ∈ value, isWhitespace c = false ∧ c ≠ ')') : Resource value value
  | quoted {q : Char} {text value : List Char} (hq : isQuote q = true) (h : Quoted q text value) :
      Resource text value

/-- The sign of a number. -/
def sign (negative : Bool) : List Char := if negative then ['-'] else []

theorem length_sign (negative : Bool) : (sign negative).length = negative.toNat := by
  cases negative <;> rfl

end Grammar

/-- **A numeral as it is written**: digits on both sides of the point, and before it at least
one. -/
structure Numeral.Valid (n : Numeral) : Prop where
  whole_ne_nil : n.whole ≠ []
  whole_digits : ∀ c ∈ n.whole, isDigit c = true
  places_digits : ∀ ds ∈ n.places, ∀ c ∈ ds, isDigit c = true

namespace Extent

open Grammar

/-! ## Runs -/

theorem take_run (p : Char → Bool) (cs : List Char) : cs.take (run p cs) = cs.takeWhile p :=
  (List.prefix_iff_eq_take.mp (List.takeWhile_prefix p)).symm

theorem of_mem_take_run {p : Char → Bool} {cs : List Char} :
    ∀ c ∈ cs.take (run p cs), p c = true := by
  rw [take_run]
  exact List.all_eq_true.mp List.all_takeWhile

/-- A scanner that has counted something has found something. -/
theorem take_ne_nil {cs : List Char} {n : Nat} (hpos : 0 < n) (hle : n ≤ cs.length) :
    cs.take n ≠ [] := fun hnil => by
  have := congrArg List.length hnil
  rw [List.length_take, Nat.min_eq_left hle, List.length_nil] at this
  omega

theorem hexCode_take_hexDigits {cs : List Char} (h : 0 < hexDigits cs) :
    HexCode (cs.take (hexDigits cs)) := by
  have hle : hexDigits cs ≤ maxHexDigits :=
    Nat.le_trans (run_le ..) (List.length_take_le ..)
  refine ⟨take_ne_nil h (hexDigits_le cs), Nat.le_trans (List.length_take_le ..) hle, ?_⟩
  have htake : cs.take (hexDigits cs) = (cs.take maxHexDigits).take (hexDigits cs) := by
    rw [List.take_take, Nat.min_eq_left hle]
  rw [htake]
  exact of_mem_take_run

/-! ## Names -/

theorem item_take_escape {p : Char → Bool} {cs : List Char} (h : 0 < escape cs) :
    Item p (cs.take (escape cs)) := by
  unfold escape at h ⊢
  split at h
  · next c ds =>
    split at h
    · next hc =>
      rw [if_pos hc, Nat.add_comm, List.take_succ_cons]
      exact .code (hexCode_take_hexDigits (hexDigits_pos hc ds))
    · next hc =>
      split at h
      · cases h
      · next hl =>
        rw [if_neg hc, if_neg hl]
        exact .escaped (Bool.eq_false_iff.mpr hc) (Bool.eq_false_iff.mpr hl)
  · cases h

/-- What is counted as an item is one, be it of the class of all names or of their beginnings. -/
theorem item_take_item {f : List Char → Nat} {p : Char → Bool} (hnil : f [] = 0)
    (hcons : ∀ c cs, f (c :: cs) = if p c then 1 else escape (c :: cs)) :
    ∀ {cs : List Char}, 0 < f cs → Item p (cs.take (f cs))
  | [], h => absurd h (by rw [hnil]; exact Nat.lt_irrefl 0)
  | c :: cs, h => by
      rw [hcons] at h ⊢
      split at h
      · next hc =>
        rw [if_pos hc]
        exact .char hc
      · next hc =>
        rw [if_neg hc]
        exact item_take_escape h

theorem item_take_nameItem {cs : List Char} (h : 0 < nameItem cs) :
    Item isName (cs.take (nameItem cs)) := item_take_item rfl (fun _ _ => rfl) h

theorem item_take_nameStart {cs : List Char} (h : 0 < nameStart cs) :
    Item isNameStart (cs.take (nameStart cs)) := item_take_item rfl (fun _ _ => rfl) h

/-- The induction takes one item of the name after another. -/
theorem items_take_name (cs : List Char) : Items (cs.take (name cs)) := by
  induction hk : cs.length using Nat.strongRecOn generalizing cs with
  | ind k ih =>
    rw [name_eq]
    split
    · exact .nil
    · next h0 =>
      have hpos := Nat.pos_of_ne_zero h0
      have hle := nameItem_le cs
      have hlen : (cs.drop (nameItem cs)).length < k := by
        rw [List.length_drop]
        omega
      rw [List.take_add]
      exact .cons (item_take_nameItem hpos) (ih _ hlen _ rfl)

theorem name_take_name {cs : List Char} (h : 0 < name cs) : Name (cs.take (name cs)) :=
  ⟨take_ne_nil h (name_le cs), items_take_name cs⟩

theorem identifier_take_identifier {cs : List Char} (h : 0 < identifier cs) :
    Identifier (cs.take (identifier cs)) := by
  unfold identifier at h ⊢
  split at h
  · cases h
  · next n hn =>
    have hitem := @item_take_nameStart cs (by omega)
    rw [hn] at hitem
    rw [List.take_add]
    exact .mk hitem (items_take_name _)

/-- A character of names is an item by itself. -/
theorem name_cons_of_isName {c : Char} (hc : isName c = true) (cs : List Char) :
    name (c :: cs) = 1 + name cs := by
  have hitem : nameItem (c :: cs) = 1 := if_pos hc
  rw [name_eq, hitem, if_neg Nat.one_ne_zero, List.drop_one, List.tail_cons]

theorem word_take_name {c : Char} {cs : List Char} (hw : isWhitespace c = false)
    (hc : isNameStart c = true) : Word ((c :: cs).take (name (c :: cs))) := by
  have hname : isName c = true := by simp [isName, hc]
  rw [name_cons_of_isName hname, Nat.add_comm, List.take_succ_cons]
  exact .mk hw hc (items_take_name cs)

/-! ## Comments, strings and resources -/

/-- **The inside of a block comment holds no `*/`.** -/
theorem not_infix_take_blockComment (cs : List Char) :
    ¬['*', '/'] <:+: cs.take (blockComment cs) := by
  fun_induction blockComment cs with
  | case1 => decide
  | case2 => simp
  | case3 c cs hc ih =>
    rw [Nat.add_comm, List.take_succ_cons, List.infix_cons_iff]
    rintro (hbegin | hinfix)
    · obtain ⟨rfl, ds, hds⟩ := List.cons_prefix_cons.mp hbegin
      refine head?_take_ne (fun hhead => hc ⟨rfl, hhead⟩) (blockComment cs) ?_
      rw [← hds]
      rfl
    · exact ih hinfix

/-- The inside of a string, which may end with a backslash that has nothing to escape. -/
theorem inside_take_quoted (q : Char) (cs : List Char) :
    Inside q (cs.take (quoted q cs)) ∨
      ∃ value, cs = value ++ ['\\'] ∧ Inside q value ∧ quoted q cs = cs.length := by
  fun_induction quoted q cs with
  | case1 => exact Or.inl .nil
  | case2 => exact Or.inl .nil
  | case3 => exact Or.inr ⟨[], rfl, .nil, rfl⟩
  | case4 c cs _ ih =>
    rw [Nat.add_comm, List.take_succ_cons, List.take_succ_cons]
    rcases ih with hin | ⟨value, rfl, hin, hlen⟩
    · exact Or.inl (.escaped hin)
    · exact Or.inr ⟨'\\' :: c :: value, rfl, .escaped hin, congrArg (· + 2) hlen⟩
  | case5 c cs hc hb ih =>
    obtain ⟨hq, hline⟩ := not_or.mp hc
    have hline := Bool.eq_false_iff.mpr hline
    rw [Nat.add_comm, List.take_succ_cons]
    rcases ih with hin | ⟨value, rfl, hin, hlen⟩
    · exact Or.inl (.plain hq hline hb hin)
    · exact Or.inr ⟨c :: value, rfl, .plain hq hline hb hin, congrArg (· + 1) hlen⟩

/-- One character more, if it is there. -/
theorem take_succ_of_head?_drop {cs : List Char} {n : Nat} {c : Char}
    (h : (cs.drop n).head? = some c) : cs.take (n + 1) = cs.take n ++ [c] := by
  rw [List.take_add_one, ← List.head?_drop, h]
  rfl

theorem quoted_take_quotedClosed (q : Char) (cs : List Char) :
    Quoted q (q :: cs.take (quotedClosed q cs)) (cs.take (quoted q cs)) := by
  simp only [quotedClosed]
  rcases inside_take_quoted q cs with hin | ⟨value, rfl, hin, hlen⟩
  · split
    · next hclose =>
      rw [take_succ_of_head?_drop hclose]
      exact .inside hin .present
    · have := Quoted.inside hin .absent
      rwa [List.append_nil] at this
  · have hnone : ([] : List Char).head? ≠ some q := by simp
    rw [hlen, List.drop_length, if_neg hnone, List.take_length]
    exact .dangling hin

end Extent

namespace Lexeme

open Extent Grammar

theorem resource_take_resource : ∀ cs : List Char,
    Resource (cs.take (resource cs).2)
      ((cs.drop (resource cs).1.start).take ((resource cs).1.stop - (resource cs).1.start))
  | [] => .bare (fun _ h => nomatch h) (fun _ h => nomatch h)
  | c :: cs => by
      rw [resource]
      split
      · next hq =>
        simp only
        rw [Nat.add_sub_cancel_left, Nat.add_comm, List.take_succ_cons]
        exact .quoted hq (quoted_take_quotedClosed c cs)
      · next hq =>
        simp only
        rw [List.drop_zero, Nat.sub_zero]
        refine .bare (fun d hd => ?_) fun d hd => ?_
        · rw [List.head?_take] at hd
          split at hd
          · cases hd
          · obtain rfl := Option.some.inj hd
            exact Bool.eq_false_iff.mpr hq
        · have := of_mem_take_run d hd
          simpa using this

end Lexeme

namespace Numeral

theorem valid_read {c : Char} {cs : List Char} (hc : isDigit c = true) :
    (read (c :: cs)).1.Valid := by
  have hne : (c :: cs).takeWhile isDigit ≠ [] := by
    rw [List.takeWhile_cons_of_pos hc]
    exact List.cons_ne_nil _ _
  have hdigits : ∀ {ds : List Char}, ∀ d ∈ ds.takeWhile isDigit, isDigit d = true :=
    List.all_eq_true.mp List.all_takeWhile
  unfold read
  split
  · exact ⟨hne, hdigits, fun ds hds => Option.some.inj hds ▸ hdigits⟩
  · exact ⟨hne, hdigits, fun ds hds => nomatch hds⟩

end Numeral

end StyleLex
