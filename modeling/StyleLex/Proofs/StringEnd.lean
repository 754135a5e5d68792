import Mathlib.Algebra.Ring.Parity
import StyleLex.Proofs.Stops

/-!
# Proofs/StringEnd — a string ends at its first stop

A string is scanned in steps of one character, or of two where a backslash has something to escape.
Where it ends can be told without the steps.  A character is *escaped* if an odd number of
backslashes stands directly before it (`Grammar.EscapedAt`), a *stop* is a quote or an end of the
line that is not escaped (`Grammar.StringStopAt`), and the string ends at its first stop
(`Extent.endsAt_quoted`).

The two agree because a step never ends between a backslash and what it escapes: it goes over an
even number of backslashes or ends with something else, and then the characters behind it are
escaped exactly if they are so without it (`Grammar.escapedAt_append`).

`Grammar.StringParts` takes what follows an opening quote apart into the value, the quote that
closes the string if it is there, and the rest.
-/

namespace StyleLex

open Chars

/-! ## Backslashes -/

namespace Grammar

/-- The number of backslashes directly before the place `i`. -/
def backslashesBefore (cs : List Char) (i : Nat) : Nat :=
  Extent.run (· == '\\') (cs.take i).reverse

/-- **The character at `i` is escaped**: an odd number of backslashes stands directly before it. -/
def EscapedAt (cs : List Char) (i : Nat) : Prop := Odd (backslashesBefore cs i)

/-- **A stop of a string with the quote `q`**: a quote or an end of the line that is not escaped. -/
def StringStopAt (q : Char) (cs : List Char) (i : Nat) : Prop :=
  ∃ c, cs[i]? = some c ∧ (c = q ∨ isLineEnd c = true) ∧ ¬EscapedAt cs i

theorem not_escapedAt_zero (cs : List Char) : ¬EscapedAt cs 0 := by
  rw [EscapedAt, backslashesBefore, List.take_zero]
  decide

/-- What stands behind a backslash at the beginning is escaped. -/
theorem escapedAt_one (cs : List Char) : EscapedAt ('\\' :: cs) 1 := by
  rw [EscapedAt, backslashesBefore, List.take_succ_cons, List.take_zero]
  decide

/-- A run goes on into the next list if it takes up the whole of the first one. -/
theorem run_append (p : Char → Bool) (cs ds : List Char) :
    Extent.run p (cs ++ ds) =
      if Extent.run p cs = cs.length then Extent.run p cs + Extent.run p ds
      else Extent.run p cs := by
  change ((cs ++ ds).takeWhile p).length =
    if (cs.takeWhile p).length = cs.length then _ + (ds.takeWhile p).length else _
  rw [List.takeWhile_append]
  split
  · next h => rw [List.length_append, Extent.run, h]
  · rfl

/-- **Whether a character is escaped** does not depend on what stands before an even number of
backslashes. -/
theorem escapedAt_append {pre : List Char} (hpre : Even (Extent.run (· == '\\') pre.reverse))
    (cs : List Char) (i : Nat) : EscapedAt (pre ++ cs) (pre.length + i) ↔ EscapedAt cs i := by
  unfold EscapedAt backslashesBefore
  rw [List.take_length_add_append, List.reverse_append, run_append]
  split
  · rw [Nat.odd_add, iff_true_right hpre]
  · rfl

theorem stringStopAt_append (q : Char) {pre : List Char}
    (hpre : Even (Extent.run (· == '\\') pre.reverse)) (cs : List Char) (i : Nat) :
    StringStopAt q (pre ++ cs) (pre.length + i) ↔ StringStopAt q cs i := by
  unfold StringStopAt
  rw [List.getElem?_append_right (Nat.le_add_right ..), Nat.add_sub_cancel_left,
    escapedAt_append hpre]

/-- A backslash with what it escapes, be that a backslash too or not. -/
theorem even_run_escape (c : Char) : Even (Extent.run (· == '\\') ['\\', c].reverse) := by
  by_cases hc : c = '\\'
  · subst hc
    decide
  · have hzero : Extent.run (· == '\\') ['\\', c].reverse = 0 := by simp [Extent.run, hc]
    rw [hzero]
    exact Even.zero

theorem even_run_of_ne {c : Char} (hc : c ≠ '\\') :
    Even (Extent.run (· == '\\') [c].reverse) := by
  have hzero : Extent.run (· == '\\') [c].reverse = 0 := by simp [Extent.run, hc]
  rw [hzero]
  exact Even.zero

end Grammar

/-! ## The end of a string -/

namespace Extent

open Grammar

/-- **The inside of a string ends at its first stop.** -/
theorem endsAt_quoted (q : Char) (cs : List Char) :
    EndsAt (StringStopAt q cs) cs.length (quoted q cs) := by
  fun_induction quoted q cs with
  | case1 =>
    refine .none ?_
    rintro i ⟨c, hget, -⟩
    simp at hget
  | case2 c cs hc => exact .zero ⟨c, rfl, hc, not_escapedAt_zero _⟩
  | case3 hc =>
    refine .none ?_
    rintro i ⟨c, hget, hstop, -⟩
    obtain rfl := List.mem_singleton.mp (List.mem_of_getElem? hget)
    exact hc hstop
  | case4 c cs hc ih =>
    -- neither the backslash nor what it escapes is a stop
    have hbefore : ∀ i < 2, ¬StringStopAt q ('\\' :: c :: cs) i := by
      rintro i hi ⟨d, hget, hstop, hescaped⟩
      obtain rfl | rfl : i = 0 ∨ i = 1 := by omega
      · obtain rfl := Option.some.inj hget
        exact hc hstop
      · exact hescaped (escapedAt_one _)
    have hend := ih.shift hbefore (stringStopAt_append q (even_run_escape c) cs)
    rwa [Nat.add_comm 2 cs.length] at hend
  | case5 c cs hc hb ih =>
    have hbefore : ∀ i < 1, ¬StringStopAt q (c :: cs) i := by
      rintro i hi ⟨d, hget, hstop, -⟩
      obtain rfl : i = 0 := Nat.lt_one_iff.mp hi
      obtain rfl := Option.some.inj hget
      exact hc hstop
    have hend := ih.shift hbefore (stringStopAt_append q (even_run_of_ne hb) cs)
    rwa [Nat.add_comm 1 cs.length] at hend

end Extent

namespace Grammar

/-- **A string behind its opening quote `q`**: the value up to the first stop, the quote that closes
it if the stop is one, and the rest. -/
structure StringParts (q : Char) (cs value close rest : List Char) : Prop where
  eq_append : cs = value ++ (close ++ rest)
  ends : EndsAt (StringStopAt q cs) cs.length value.length
  close_eq : close = if cs[value.length]? = some q then [q] else []

namespace StringParts

variable {q : Char} {cs value close rest : List Char}

/-- There is one way only to take a string apart. -/
theorem unique {value' close' rest' : List Char} (h : StringParts q cs value close rest)
    (h' : StringParts q cs value' close' rest') :
    value = value' ∧ close = close' ∧ rest = rest' := by
  have hlen := h.ends.unique h'.ends
  obtain ⟨rfl, htail⟩ := List.append_inj (h.eq_append.symm.trans h'.eq_append) hlen
  obtain rfl : close = close' := h.close_eq.trans h'.close_eq.symm
  exact ⟨rfl, rfl, List.append_cancel_left htail⟩

/-- **An end of the line is not consumed**: it stays the next character. -/
theorem head?_rest_of_isLineEnd (hq : isLineEnd q = false) (h : StringParts q cs value close rest)
    {c : Char} (hget : cs[value.length]? = some c) (hc : isLineEnd c = true) :
    rest.head? = some c := by
  have hne : cs[value.length]? ≠ some q := by
    rw [hget]
    rintro heq
    obtain rfl := Option.some.inj heq
    rw [hq] at hc
    cases hc
  have hclose := h.close_eq
  rw [if_neg hne] at hclose
  rw [h.eq_append, hclose, List.nil_append, List.getElem?_append_right (Nat.le_refl _),
    Nat.sub_self, ← List.head?_eq_getElem?] at hget
  exact hget

end StringParts

/-- **What is scanned as a string is taken apart at its first stop.** -/
theorem exists_stringParts (q : Char) (cs : List Char) :
    ∃ value close rest, StringParts q cs value close rest ∧
      value.length = Extent.quoted q cs ∧
      value.length + close.length = Extent.quotedClosed q cs := by
  have hlen : (cs.take (Extent.quoted q cs)).length = Extent.quoted q cs :=
    List.length_take_of_le (Extent.quoted_le q cs)
  have hends := hlen.symm ▸ Extent.endsAt_quoted q cs
  have hclosed : Extent.quotedClosed q cs =
      if cs[Extent.quoted q cs]? = some q then Extent.quoted q cs + 1 else Extent.quoted q cs := by
    simp only [Extent.quotedClosed, List.head?_drop]
  by_cases hq : cs[Extent.quoted q cs]? = some q
  · refine ⟨_, [q], cs.drop (Extent.quoted q cs + 1), ⟨?_, hends, ?_⟩, hlen, ?_⟩
    · have htake := Extent.take_succ_of_head?_drop (List.head?_drop.trans hq)
      rw [← List.append_assoc, ← htake, List.take_append_drop]
    · rw [hlen, if_pos hq]
    · rw [hclosed, if_pos hq, hlen, List.length_singleton]
  · refine ⟨_, [], cs.drop (Extent.quoted q cs), ⟨?_, hends, ?_⟩, hlen, ?_⟩
    · rw [List.nil_append, List.take_append_drop]
    · rw [hlen, if_neg hq]
    · rw [hclosed, if_neg hq, hlen, List.length_nil, Nat.add_zero]

end Grammar

end StyleLex
