import StyleLex.Extent.Lemmas
import StyleLex.Proofs.History
import StyleLex.Proofs.Truncation
import StyleLex.Source.View

/-!
# Proofs/Locality — looking ahead stays inside the window

What is counted ahead is counted by looking at one place after another, and nothing but what is seen
there bounds the count.  A run ends because it goes on by a character each time, and a name because
it goes on by an item that is not empty.  Each item ends in the window, so the characters that are
left get fewer until none is.

`View.Shows v offset cs` says what is seen from an offset on: `cs`, and the end behind them, no
offset having more than 64 bits.  Then each count is the one that `Extent` makes of `cs`
(`Construct.count?_eq_some`), by induction on how many characters are left.  A cursor shows the
characters of its window (`Checked.Mirrors.shows`), wherever the acts on it have led, so its counts
end there, and know nothing about what lies before and behind (`Checked.counts_are_local`).
-/

namespace StyleLex

open Checked

/-! ## What a view shows -/

namespace View

open Chars Extent

/-- **What is seen from an offset on**: these characters, and the end behind them.  The offsets up
to there have no more than 64 bits. -/
def Shows (v : View) (offset : Nat) (cs : List Char) : Prop :=
  ∀ i ≤ cs.length, offset + i ≤ maxPosition ∧ v.look (offset + i) = some cs[i]?

namespace Shows

variable {v : View} {offset : Nat} {cs : List Char} (h : v.Shows offset cs)

include h

/-- A look shows the next of the characters that are left, or the end. -/
theorem look_eq : v.look offset = some cs.head? := by
  rw [List.head?_eq_getElem?]
  exact (h 0 (Nat.zero_le _)).2

theorem word?_self : word? offset = some offset := word?_of_le (h 0 (Nat.zero_le _)).1

theorem word?_add {n : Nat} (hn : n ≤ cs.length) : word? (offset + n) = some (offset + n) :=
  word?_of_le (h n hn).1

/-- What is counted up to a place in sight is no larger than its offset. -/
theorem word?_of_le_add {m n : Nat} (hm : m ≤ offset + n) (hn : n ≤ cs.length) :
    word? m = some m :=
  word?_of_le (Nat.le_trans hm (h n hn).1)

/-- **Looking from further on** shows what is left. -/
theorem drop {n : Nat} (hn : n ≤ cs.length) : v.Shows (offset + n) (cs.drop n) := by
  intro i hi
  rw [List.length_drop] at hi
  rw [Nat.add_assoc, List.getElem?_drop]
  exact h (n + i) (by omega)

end Shows

/-! ## Runs -/

/-- The characters that a run may still count, if `count` are counted. -/
def allowed (limit : Option Nat) (count : Nat) (cs : List Char) : List Char :=
  limit.elim cs fun n => cs.take (n - count)

/-- At the end nothing is allowed, whatever the limit. -/
theorem allowed_nil (limit : Option Nat) (count : Nat) : allowed limit count [] = [] := by
  cases limit <;> simp [allowed]

theorem allowed_of_limit {limit : Option Nat} {count : Nat} (h : ¬limit.all (count < ·))
    (cs : List Char) : allowed limit count cs = [] := by
  cases limit with
  | none => simp at h
  | some n =>
    have hle : n ≤ count := by simpa using h
    simp [allowed, Nat.sub_eq_zero_of_le hle]

theorem allowed_cons {limit : Option Nat} {count : Nat} (h : limit.all (count < ·)) (c : Char)
    (cs : List Char) : allowed limit count (c :: cs) = c :: allowed limit (count + 1) cs := by
  cases limit with
  | none => rfl
  | some n =>
    have hlt : count < n := by simpa using h
    have hsub : n - count = n - (count + 1) + 1 := by omega
    rw [allowed, Option.elim_some, hsub, List.take_succ_cons]
    rfl

variable {v : View} {offset count : Nat} {cs : List Char}

/-- A run goes on by a character with the property, unless it is at its limit. -/
theorem runFrom?_eq (p : Char → Bool) (limit : Option Nat) (h : v.Shows (offset + count) cs) :
    v.runFrom? p limit offset count =
      if limit.all (count < ·) && cs.head?.any p then v.runFrom? p limit offset (count + 1)
      else some count := by
  have hseen : (word? (offset + count)).bind v.look = some cs.head? := by
    rw [h.word?_self, Option.bind_some, h.look_eq]
  rw [runFrom?]
  by_cases hlimit : limit.all (count < ·)
  · rw [if_pos hlimit, hlimit, Bool.true_and]
    split
    · next hfails => exact absurd (hseen.symm.trans hfails) (Option.some_ne_none _)
    · next hend =>
      rw [Option.some.inj (hseen.symm.trans hend)]
      rfl
    · next c hc =>
      have hhead : cs.head? = some c := Option.some.inj (hseen.symm.trans hc)
      have hpos : 1 ≤ cs.length := List.length_pos_of_mem (List.mem_of_head? hhead)
      rw [hhead, h.word?_of_le_add (m := count + 1) (by omega) hpos]
      rfl
  · rw [if_neg hlimit, Bool.eq_false_iff.mpr hlimit]
    rfl

/-- **A run ends**, since it goes on by one of the characters that are left. -/
theorem runFrom?_eq_some (p : Char → Bool) (limit : Option Nat)
    (h : v.Shows (offset + count) cs) :
    v.runFrom? p limit offset count = some (count + run p (allowed limit count cs)) := by
  induction cs generalizing count with
  | nil =>
    rw [runFrom?_eq p limit h, if_neg (by simp), allowed_nil]
    rfl
  | cons c cs ih =>
    rw [runFrom?_eq p limit h, List.head?_cons, Option.any_some]
    by_cases hlimit : limit.all (count < ·)
    · rw [allowed_cons hlimit, run_cons, hlimit, Bool.true_and]
      split
      · rw [ih (h.drop (n := 1) (by simp)), Nat.add_assoc, Nat.add_comm 1]
      · rfl
    · rw [allowed_of_limit hlimit, Bool.eq_false_iff.mpr hlimit]
      rfl

theorem whitespace?_eq_some (h : v.Shows offset cs) :
    v.whitespace? offset = some (whitespace cs) := by
  rw [whitespace?, runFrom?_eq_some _ _ h, Nat.zero_add]
  rfl

/-- The limit of six digits stops the count where `take` stops the run. -/
theorem hexDigits?_eq_some (h : v.Shows offset cs) :
    v.hexDigits? offset = some (hexDigits cs) := by
  rw [hexDigits?, runFrom?_eq_some _ _ h, Nat.zero_add]
  rfl

/-! ## Names -/

/-- **An escape is counted** by looking at the character behind the backslash, and at the digits if
it is one. -/
theorem escape?_eq_some (h : v.Shows offset cs) : v.escape? offset = some (escape cs) := by
  rw [escape?]
  simp only [h.look_eq, Option.bind_eq_bind, Option.bind_some]
  by_cases hb : cs.head? = some '\\'
  · obtain ⟨rest, rfl⟩ := List.head?_eq_some_iff.mp hb
    have hrest : v.Shows (offset + 1) rest := h.drop (n := 1) (by simp)
    rw [if_neg (not_not_intro hb), hrest.word?_self, Option.bind_some, hrest.look_eq,
      Option.bind_some]
    cases rest with
    | nil =>
      -- the place behind the backslash may be looked at, and is the end
      rfl
    | cons c cs =>
      have hle : 1 + hexDigits (c :: cs) ≤ ('\\' :: c :: cs).length := by
        have := hexDigits_le (c :: cs)
        simp only [List.length_cons] at this ⊢
        omega
      simp only [List.head?_cons, hexDigits?_eq_some hrest, Option.bind_some, escape,
        h.word?_of_le_add (Nat.le_add_left _ offset) hle]
      split
      · rfl
      · split <;> rfl
  · rw [if_pos hb]
    cases cs with
    | nil => rfl
    | cons c cs =>
      rw [escape_of_ne (by simpa using hb)]
      rfl

/-- An item of a name: a character of some class, or an escape. -/
theorem item?_eq_some {f : List Char → Nat} {p : Char → Bool} (hnil : f [] = 0)
    (hcons : ∀ c cs, f (c :: cs) = if p c then 1 else escape (c :: cs))
    (h : v.Shows offset cs) : v.item? p offset = some (f cs) := by
  rw [item?, h.look_eq, Option.bind_eq_bind, Option.bind_some]
  cases cs with
  | nil =>
    rw [hnil]
    rfl
  | cons c cs =>
    rw [hcons]
    simp only [List.head?_cons]
    split
    · rfl
    · split
      · exact escape?_eq_some h
      · next hc =>
        rw [escape_of_ne hc]
        rfl

theorem nameStart?_eq_some (h : v.Shows offset cs) :
    v.nameStart? offset = some (nameStart cs) := item?_eq_some rfl (fun _ _ => rfl) h

theorem nameItem?_eq_some (h : v.Shows offset cs) : v.nameItem? offset = some (nameItem cs) :=
  item?_eq_some rfl (fun _ _ => rfl) h

/-- **A name ends**, since it goes on by items that are not empty and lie in what is left. -/
theorem nameFrom?_eq_some (h : v.Shows (offset + count) cs) :
    v.nameFrom? offset count = some (count + name cs) := by
  -- an item has up to seven characters, so the induction is on how many are left
  induction hk : cs.length using Nat.strongRecOn generalizing cs count with
  | ind k ih =>
    have hle := nameItem_le cs
    have hitem : (word? (offset + count)).bind v.nameItem? = some (nameItem cs) := by
      rw [h.word?_self, Option.bind_some, nameItem?_eq_some h]
    rw [nameFrom?, name_eq]
    split
    · next hfails => exact absurd (hitem.symm.trans hfails) (Option.some_ne_none _)
    · next hnone =>
      rw [if_pos (Option.some.inj (hitem.symm.trans hnone))]
      rfl
    · next n hn =>
      have hsize : nameItem cs = n + 1 := Option.some.inj (hitem.symm.trans hn)
      rw [hsize] at hle
      have hlt : (cs.drop (n + 1)).length < k := by
        rw [List.length_drop]
        omega
      have hrest := h.drop hle
      rw [Nat.add_assoc] at hrest
      rw [hsize, if_neg (Nat.succ_ne_zero n), h.word?_of_le_add (by omega) hle,
        ih _ hlt hrest rfl, Nat.add_assoc]
      rfl

theorem name?_eq_some (h : v.Shows offset cs) : v.name? offset = some (name cs) := by
  rw [name?, nameFrom?_eq_some h, Nat.zero_add]

/-- **An identifier is counted** as a name behind its first item. -/
theorem identifier?_eq_some (h : v.Shows offset cs) :
    v.identifier? offset = some (identifier cs) := by
  have hle := nameStart_le cs
  rw [identifier?, identifier]
  simp only [nameStart?_eq_some h, Option.bind_eq_bind, Option.bind_some]
  cases hfirst : nameStart cs with
  | zero => rfl
  | succ n =>
    rw [hfirst] at hle
    have hrest := h.drop hle
    have hname := name_le (cs.drop (n + 1))
    rw [List.length_drop] at hname
    rw [if_neg (Nat.succ_ne_zero n), h.word?_add hle, Option.bind_some, name?_eq_some hrest,
      Option.bind_some]
    exact h.word?_of_le_add (by omega) (n := n + 1 + name (cs.drop (n + 1))) (by omega)

end View

/-! ## All that is counted ahead -/

namespace Construct

theorem extent_le (k : Construct) (cs : List Char) : k.extent cs ≤ cs.length := by
  cases k with
  | whitespace => exact Extent.whitespace_le cs
  | identifier => exact Extent.identifier_le cs
  | name => exact Extent.name_le cs
  | nameStart => exact Extent.nameStart_le cs
  | nameItem => exact Extent.nameItem_le cs
  | escape => exact Extent.escape_le cs
  | hexDigits => exact Extent.hexDigits_le cs

/-- **Every count ends**, and is that of the characters that are seen. -/
theorem count?_eq_some (k : Construct) {v : View} {offset : Nat} {cs : List Char}
    (h : v.Shows offset cs) : k.count? v offset = some (k.extent cs) := by
  cases k with
  | whitespace => exact View.whitespace?_eq_some h
  | identifier => exact View.identifier?_eq_some h
  | name => exact View.name?_eq_some h
  | nameStart => exact View.nameStart?_eq_some h
  | nameItem => exact View.nameItem?_eq_some h
  | escape => exact View.escape?_eq_some h
  | hexDigits => exact View.hexDigits?_eq_some h

end Construct

namespace Cursor

/-- Consuming drops what was ahead, whether it is flushed or not. -/
theorem ahead_advance (c : Cursor) (n : Nat) (flushing : Bool) :
    (c.act (.advance n flushing)).ahead = c.ahead.drop n := by
  cases flushing <;> exact ahead_skip c n

end Cursor

namespace Checked

variable {s : Checked} {c : Cursor}

namespace Mirrors

variable (h : s.Mirrors c)

include h

/-- **Consuming mirrors consuming**, in the same window. -/
theorem exists_advance? {n : Nat} (hsum : s.position + n ≤ maxPosition) (flushing : Bool) :
    ∃ s', s.advance? n flushing = some s' ∧ s'.Mirrors (c.act (.advance n flushing)) ∧
      s'.stop = s.stop := by
  obtain ⟨s', hs', h'⟩ := h.act? (a := .advance n flushing) (h.position_eq ▸ hsum)
  refine ⟨s', hs', h', ?_⟩
  rw [← h'.stop_eq, ← h.stop_eq, Cursor.window_act]

theorem position_le_stop : s.position ≤ s.stop := by
  rw [h.position_eq, ← h.stop_eq]
  exact c.position_le_stop

/-- **A cursor shows the characters of its window**, and the end behind them. -/
theorem shows (hstop : s.stop ≤ maxPosition) (offset : Nat)
    (hsum : s.position + offset ≤ maxPosition) : s.view.Shows offset (c.ahead.drop offset) := by
  have hposition := h.position_eq
  have hleft : c.position + c.left = s.stop := by
    rw [← h.stop_eq]
    exact Nat.add_sub_cancel' c.position_le_stop
  intro i hi
  rw [List.length_drop, Cursor.length_ahead] at hi
  have hfits : c.position + (offset + i) ≤ maxPosition := by omega
  refine ⟨by omega, ?_⟩
  rw [List.getElem?_drop]
  exact h.peek?_eq_some hfits

/-- **What is counted ahead** is counted in the characters of the window from the offset on. -/
theorem count?_eq_some (hstop : s.stop ≤ maxPosition) (offset : Nat)
    (hsum : s.position + offset ≤ maxPosition) (k : Construct) :
    k.count? s.view offset = some (k.extent (c.ahead.drop offset)) :=
  k.count?_eq_some (h.shows hstop offset hsum)

end Mirrors

/-- **What is counted ahead is local, and stays inside the window.**  Take a cursor in machine words
at any place of a window, the end of which has no more than 64 bits, and any offset, past the end
too, that can be added to the position.  Each construct is counted there to the end and without a
failure, and the characters that are counted are left in the window.  Consuming the characters
before first makes no difference.  The count is that of the characters of the window from the offset
on, so it is the same wherever these are ahead, whatever the texts are before and behind them. -/
theorem counts_are_local (h : s.Mirrors c) (hstop : s.stop ≤ maxPosition) (offset : Nat)
    (hsum : s.position + offset ≤ maxPosition) (k : Construct) :
    ∃ n, k.count? s.view offset = some n ∧
      s.left? = some c.left ∧ (n = 0 ∨ offset + n ≤ c.left) ∧
      (∀ flushing, ∃ s', s.advance? offset flushing = some s' ∧ k.count? s'.view 0 = some n) ∧
      n = k.extent (c.ahead.drop offset) ∧
      ∀ (s' : Checked) (c' : Cursor) (offset' : Nat), s'.Mirrors c' → s'.stop ≤ maxPosition →
        s'.position + offset' ≤ maxPosition → c'.ahead.drop offset' = c.ahead.drop offset →
          k.count? s'.view offset' = some n := by
  refine ⟨_, h.count?_eq_some hstop offset hsum k, h.left?_eq_some, ?_, ?_, rfl, ?_⟩
  · have hle := k.extent_le (c.ahead.drop offset)
    rw [List.length_drop, Cursor.length_ahead] at hle
    omega
  · intro flushing
    obtain ⟨s', hs', h', hsame⟩ := h.exists_advance? hsum flushing
    have hposition : s'.position ≤ maxPosition :=
      Nat.le_trans h'.position_le_stop (hsame ▸ hstop)
    refine ⟨s', hs', ?_⟩
    rw [h'.count?_eq_some (hsame ▸ hstop) 0 hposition, List.drop_zero, Cursor.ahead_advance]
  · intro s' c' offset' h' hstop' hsum' hsame
    rw [h'.count?_eq_some hstop' offset' hsum', hsame]

/-- A name of one escape, behind the second character of a window.  The backslash at the end of the
window escapes nothing there, though a character follows in the text. -/
theorem counts_are_local_of_dangling_escape :
    ∃ s s', s = Checked.mk "x@a\\41\\z".toList 1 7 2 2 ∧
      Construct.name.count? s.view 1 = some 3 ∧ s.left? = some 5 ∧
      s.advance? 1 true = some s' ∧ Construct.name.count? s'.view 0 = some 3 ∧
      Construct.name.count? (Checked.atStart "\\41\\".toList 0 4).view 0 = some 3 := by
  have h : (Checked.mk "x@a\\41\\z".toList 1 7 2 2).Mirrors
      ⟨⟨"x@a\\41\\".toList, 1, by decide⟩, 2, 2, by decide, by decide, by decide, by decide⟩ :=
    ⟨rfl, by decide, rfl, rfl, rfl⟩
  obtain ⟨n, hn, hleft, -, hadvance, hextent, hsame⟩ :=
    counts_are_local h (by decide) 1 (by decide) .name
  obtain rfl : n = 3 := hextent
  obtain ⟨s', hs', hn'⟩ := hadvance true
  exact ⟨_, s', rfl, hn, hleft, hs', hn',
    hsame (.atStart "\\41\\".toList 0 4) (.ofText "\\41\\".toList) 0
      ⟨rfl, by decide, rfl, rfl, rfl⟩ (by decide) (by decide) rfl⟩

end Checked

end StyleLex
