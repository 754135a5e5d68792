import StyleLex.Extent

/-!
# Extent/Lemmas — no construct reaches past the end

Each count of `Extent` is at most the number of characters ahead (`…_le`).  A block comment that
does not reach the end leaves its `*/` (`blockComment_add_two_le`).  `name_eq` takes a name apart
into its items.
-/

namespace StyleLex

namespace Extent

open Chars

/-! ## Runs and items -/

/-- A run is no longer than what is ahead. -/
theorem run_le (p : Char → Bool) (cs : List Char) : run p cs ≤ cs.length :=
  (List.takeWhile_prefix p).length_le

/-- A run goes on with the next character, or is empty. -/
theorem run_cons (p : Char → Bool) (c : Char) (cs : List Char) :
    run p (c :: cs) = if p c then run p cs + 1 else 0 := by
  rw [run, List.takeWhile_cons]
  split <;> rfl

/-- There are no letters ahead if the next character is none. -/
theorem letters_eq_zero_iff {cs : List Char} :
    letters cs = 0 ↔ ∀ d ∈ cs.head?, isLetter d = false := by
  cases cs with
  | nil => simp [letters, run]
  | cons d ds => cases hd : isLetter d <;> simp [letters, run, hd]

theorem whitespace_le (cs : List Char) : whitespace cs ≤ cs.length := run_le ..

theorem letters_le (cs : List Char) : letters cs ≤ cs.length := run_le ..

theorem line_le (cs : List Char) : line cs ≤ cs.length := run_le ..

theorem bare_le (cs : List Char) : bare cs ≤ cs.length := run_le ..

/-- The digits of a code point are ahead. -/
theorem hexDigits_le (cs : List Char) : hexDigits cs ≤ cs.length :=
  Nat.le_trans (run_le ..) (List.length_take_le' ..)

/-- An escape lies ahead, with all the digits that it takes. -/
theorem escape_le : ∀ cs : List Char, escape cs ≤ cs.length
  | [] => Nat.le_refl _
  | [c] => by unfold escape; split <;> simp_all
  | c :: d :: cs => by
      have := hexDigits_le (d :: cs)
      unfold escape
      split
      · simp_all only [List.cons.injEq, List.length_cons]
        split
        · omega
        · split <;> omega
      · exact Nat.zero_le _

/-- **An item of a name lies ahead.** -/
theorem nameItem_le : ∀ cs : List Char, nameItem cs ≤ cs.length
  | [] => Nat.le_refl _
  | c :: cs => by
      have := escape_le (c :: cs)
      rw [nameItem]
      split
      · simp
      · exact this

/-- The first item of an identifier lies ahead. -/
theorem nameStart_le : ∀ cs : List Char, nameStart cs ≤ cs.length
  | [] => Nat.le_refl _
  | c :: cs => by
      have := escape_le (c :: cs)
      rw [nameStart]
      split
      · simp
      · exact this

/-! ## Names -/

/-- Inside an item of `k` characters, the name goes on behind it. -/
theorem nameFrom_eq : ∀ (k : Nat) (cs : List Char), k ≤ cs.length →
    nameFrom k cs = k + name (cs.drop k)
  | 0, cs, _ => by simp [name]
  | k + 1, [], h => by simp at h
  | k + 1, _ :: cs, h => by
      rw [nameFrom, nameFrom_eq k cs (by simpa using h), List.drop_succ_cons]
      omega

/-- **A name, item by item**: it is empty if no item is ahead, and else an item and a name. -/
theorem name_eq (cs : List Char) :
    name cs = if nameItem cs = 0 then 0 else nameItem cs + name (cs.drop (nameItem cs)) := by
  cases cs with
  | nil => rfl
  | cons c cs =>
    have hle := nameItem_le (c :: cs)
    rw [name, nameFrom]
    split
    · next h => simp [h]
    · next k h =>
      rw [h, List.length_cons] at hle
      rw [h, nameFrom_eq k cs (by omega), List.drop_succ_cons]
      simp only [Nat.add_one_ne_zero, if_false]
      omega

/-- Wherever in an item it is, a name does not go past the end. -/
theorem nameFrom_le : ∀ (k : Nat) (cs : List Char), nameFrom k cs ≤ cs.length
  | k, [] => by cases k <;> exact Nat.le_refl _
  | k + 1, _ :: cs => by
      have := nameFrom_le k cs
      rw [nameFrom, List.length_cons]
      omega
  | 0, c :: cs => by
      rw [nameFrom]
      split
      · exact Nat.zero_le _
      · next k _ =>
        have := nameFrom_le k cs
        rw [List.length_cons]
        omega

/-- **A name lies ahead.** -/
theorem name_le (cs : List Char) : name cs ≤ cs.length := nameFrom_le 0 cs

/-- A name is there if its first item is. -/
theorem name_pos {cs : List Char} (h : 0 < nameItem cs) : 0 < name cs := by
  rw [name_eq, if_neg (by omega)]
  omega

/-- **An identifier lies ahead**: its first item, and the name behind that. -/
theorem identifier_le (cs : List Char) : identifier cs ≤ cs.length := by
  have h1 := nameStart_le cs
  unfold identifier
  split
  · exact Nat.zero_le _
  · next n hn =>
    have h2 := name_le (cs.drop (n + 1))
    rw [List.length_drop] at h2
    omega

/-! ## Comments and strings -/

/-- The inside of a block comment lies ahead, closed or not. -/
theorem blockComment_le : ∀ cs : List Char, blockComment cs ≤ cs.length
  | [] => Nat.le_refl _
  | c :: cs => by
      have := blockComment_le cs
      rw [blockComment]
      split <;> simp only [List.length_cons] <;> omega

/-- **A closed comment has its `*/` ahead.** -/
theorem blockComment_add_two_le : ∀ {cs : List Char}, blockComment cs < cs.length →
    blockComment cs + 2 ≤ cs.length
  | [], h => by simp at h
  | c :: cs, h => by
      rw [blockComment] at h ⊢
      split
      · next hc =>
        cases cs with
        | nil => simp at hc
        | cons d cs => simp
      · next hc =>
        rw [if_neg hc] at h
        have := @blockComment_add_two_le cs (by simp only [List.length_cons] at h; omega)
        simp only [List.length_cons]
        omega

/-- The inside of a string lies ahead, also where a backslash escapes nothing. -/
theorem quoted_le (q : Char) : ∀ cs : List Char, quoted q cs ≤ cs.length
  | [] => Nat.le_refl _
  | [c] => by
      unfold quoted
      split
      · exact Nat.zero_le _
      · split <;> simp [quoted]
  | c :: d :: cs => by
      have h1 := quoted_le q cs
      have h2 := quoted_le q (d :: cs)
      unfold quoted
      simp only [List.length_cons] at *
      split
      · exact Nat.zero_le _
      · split <;> omega

/-- A character found after `n` others is inside the list. -/
theorem lt_length_of_head?_drop {cs : List Char} {n : Nat} {c : Char}
    (h : (cs.drop n).head? = some c) : n < cs.length := by
  rw [List.head?_drop] at h
  exact (List.getElem?_eq_some_iff.mp h).1

/-- The quote that closes a string comes after its inside. -/
theorem quoted_le_quotedClosed (q : Char) (cs : List Char) : quoted q cs ≤ quotedClosed q cs := by
  simp only [quotedClosed]
  split <;> omega

/-- A string lies ahead with the quote that closes it. -/
theorem quotedClosed_le (q : Char) (cs : List Char) : quotedClosed q cs ≤ cs.length := by
  have h := quoted_le q cs
  simp only [quotedClosed]
  split
  · next hq => exact lt_length_of_head?_drop hq
  · exact h

end Extent

end StyleLex
