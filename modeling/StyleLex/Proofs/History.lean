import Mathlib.Data.List.DropRight
import Mathlib.Order.Bounds.Basic
import StyleLex.Source.Checked

/-!
# Proofs/History — where a cursor is, told by what was done to it

A cursor stops at the end of its window and limits what it flushes to that end, one act at a time.
Here its state is told from all the acts at once: the position is as far from the beginning as the
acts went since they last went back there, and the committed position is the greatest that they
flushed up to, both limited to the end (`Reaches`).  One act keeps this (`Reaches.act`), so it holds
after any acts (`reaches_afterActs`).

The bounds that the operations rely on are part of a cursor.  That they are never missed is said by
a cursor that has none and checks instead (`Source/Checked`): as long as the sums fit in 64 bits it
never fails and goes in step with the other (`Checked.mirrors_performAll?`).
-/

namespace StyleLex

namespace Cursor

/-! ## Acts -/

/-- **What can be asked of a cursor.** -/
inductive Act where
  /-- To consume `n` characters and to flush them if `flushing`.  A single step consumes one and
  flushes nothing. -/
  | advance (n : Nat) (flushing : Bool)
  /-- To flush everything before a position. -/
  | flush (position : Nat)
  /-- To go back to the beginning. -/
  | rewind
  /-- To look at a character ahead. -/
  | peek (offset : Nat)
  /-- To cut out a piece. -/
  | slice (start stop : Nat)
  deriving DecidableEq, Repr

namespace Act

/-- The number of characters that an act consumes, if as many are left. -/
def distance : Act → Nat
  | advance n _ => n
  | _ => 0

/-- The number that an act adds to the position. -/
def summand : Act → Nat
  | advance n _ => n
  | peek offset => offset
  | _ => 0

/-- The position that an act flushes up to, if it flushes, `reached` being the position that it
leads to. -/
def flushes? (reached : Nat) : Act → Option Nat
  | advance _ true => some reached
  | flush position => some position
  | _ => none

end Act

/-- The cursor after an act.  Looking does not change it. -/
def act (c : Cursor) : Act → Cursor
  | .advance n flushing => Id.run (c.advance n flushing)
  | .flush position => Id.run (c.flush position)
  | .rewind => c.rewind
  | .peek _ | .slice .. => c

/-- The cursor after some acts, the first one first. -/
def afterActs (c : Cursor) (acts : List Act) : Cursor := acts.foldl act c

theorem afterActs_append (c : Cursor) (acts more : List Act) :
    c.afterActs (acts ++ more) = (c.afterActs acts).afterActs more := List.foldl_append

theorem afterActs_concat (c : Cursor) (acts : List Act) (a : Act) :
    c.afterActs (acts ++ [a]) = (c.afterActs acts).act a := afterActs_append c acts [a]

/-! ## What acts do at once -/

/-- The acts after the last one that goes back to the beginning. -/
def sinceRewind (acts : List Act) : List Act := acts.rtakeWhile (· ≠ .rewind)

/-- The number of characters that acts consume, if as many are left. -/
def distance (acts : List Act) : Nat := acts.foldl (fun n a => n + a.distance) 0

/-- The position that acts lead to from the beginning of a window. -/
def reached (start stop : Nat) (acts : List Act) : Nat := min (start + distance acts) stop

/-- **The positions that acts flush up to**, from the beginning of a window.  Nothing is flushed at
the beginning, which is to say that everything before it is. -/
def flushedTo (start stop : Nat) (acts : List Act) : Set Nat :=
  {p | p = start ∨ ∃ before a, before ++ [a] <+: acts ∧
    a.flushes? (reached start stop (before ++ [a])) = some p}

theorem sinceRewind_rewind (acts : List Act) : sinceRewind (acts ++ [.rewind]) = [] :=
  List.rtakeWhile_concat_neg _ _ _ (by simp)

theorem sinceRewind_concat (acts : List Act) {a : Act} (ha : a ≠ .rewind) :
    sinceRewind (acts ++ [a]) = sinceRewind acts ++ [a] :=
  List.rtakeWhile_concat_pos _ _ _ (by simpa using ha)

theorem distance_concat (acts : List Act) (a : Act) :
    distance (acts ++ [a]) = distance acts + a.distance := List.foldl_append

/-- Stopping at the end on the way leads to the same place. -/
theorem reached_concat (start stop : Nat) (acts : List Act) (a : Act) :
    reached start stop (acts ++ [a]) = min (reached start stop acts + a.distance) stop := by
  rw [reached, reached, distance_concat]
  omega

theorem flushedTo_nil (start stop : Nat) : flushedTo start stop [] = {start} := by
  ext p
  simp [flushedTo]

/-- **The last act may flush up to one position more.** -/
theorem mem_flushedTo_concat {start stop p : Nat} {acts : List Act} {a : Act} :
    p ∈ flushedTo start stop (acts ++ [a]) ↔
      a.flushes? (reached start stop (acts ++ [a])) = some p ∨ p ∈ flushedTo start stop acts := by
  simp only [flushedTo, Set.mem_ofPred_eq, List.prefix_concat_iff, or_and_right, exists_or]
  have hlast : (∃ before b, before ++ [b] = acts ++ [a] ∧
      b.flushes? (reached start stop (before ++ [b])) = some p) ↔
        a.flushes? (reached start stop (acts ++ [a])) = some p := by
    constructor
    · rintro ⟨before, b, heq, hp⟩
      obtain ⟨rfl, hb⟩ := List.append_inj' heq rfl
      obtain rfl := List.singleton_inj.mp hb
      exact hp
    · exact fun hp => ⟨acts, a, rfl, hp⟩
  rw [hlast]
  exact or_left_comm

/-! ## One act -/

theorem window_act (c : Cursor) (a : Act) : (c.act a).window = c.window := by
  cases a with
  | advance n flushing => cases flushing <;> rfl
  | _ => rfl

theorem position_act (c : Cursor) {a : Act} (ha : a ≠ .rewind) :
    (c.act a).position = min (c.position + a.distance) c.window.stop := by
  cases a with
  | advance n flushing => cases flushing <;> rfl
  | rewind => exact absurd rfl ha
  | _ => exact (Nat.min_eq_left c.position_le_stop).symm

theorem committed_act (c : Cursor) {a : Act} (ha : a ≠ .rewind) :
    (c.act a).committed =
      match a.flushes? (c.act a).position with
      | none => c.committed
      | some p => max c.committed (min p c.window.stop) := by
  cases a with
  | advance n flushing => cases flushing <;> rfl
  | rewind => exact absurd rfl ha
  | _ => rfl

/-- **Flushing never goes backwards.** -/
theorem committed_le_act (c : Cursor) {a : Act} (ha : a ≠ .rewind) :
    c.committed ≤ (c.act a).committed := by
  rw [committed_act c ha]
  split
  · exact Nat.le_refl _
  · exact Nat.le_max_left ..

/-- **A cursor is where these acts lead** from the beginning of its window. -/
structure Reaches (w : Window) (acts : List Act) (c : Cursor) : Prop where
  window_eq : c.window = w
  position_eq : c.position = reached w.start w.stop acts
  committed_eq : ∃ m, IsGreatest (flushedTo w.start w.stop acts) m ∧ c.committed = min m w.stop

theorem reaches_atStart (w : Window) : Reaches w [] (atStart w) where
  window_eq := rfl
  position_eq := (Nat.min_eq_left w.start_le_length).symm
  committed_eq := by
    refine ⟨w.start, ?_, (Nat.min_eq_left w.start_le_length).symm⟩
    rw [flushedTo_nil]
    exact isGreatest_singleton

/-- **One act more.** -/
theorem Reaches.act {w : Window} {acts : List Act} {c : Cursor} (h : Reaches w acts c) {a : Act}
    (ha : a ≠ .rewind) : Reaches w (acts ++ [a]) (c.act a) := by
  have hposition : (c.act a).position = reached w.start w.stop (acts ++ [a]) := by
    rw [position_act c ha, h.position_eq, h.window_eq, reached_concat]
  refine ⟨(window_act c a).trans h.window_eq, hposition, ?_⟩
  obtain ⟨m, hm, hcommitted⟩ := h.committed_eq
  rw [committed_act c ha, h.window_eq, hcommitted, hposition]
  cases hp : a.flushes? (reached w.start w.stop (acts ++ [a])) with
  | none =>
    have hset : flushedTo w.start w.stop (acts ++ [a]) = flushedTo w.start w.stop acts := by
      ext p
      rw [mem_flushedTo_concat, hp]
      simp
    exact ⟨m, hset.symm ▸ hm, rfl⟩
  | some p =>
    have hset : flushedTo w.start w.stop (acts ++ [a]) =
        insert p (flushedTo w.start w.stop acts) := by
      ext q
      rw [mem_flushedTo_concat, hp, Option.some.injEq, Set.mem_insert_iff, eq_comm]
    refine ⟨max p m, hset.symm ▸ hm.insert p, ?_⟩
    change max (min m w.stop) (min p w.stop) = min (max p m) w.stop
    omega

/-- **Any acts**: only those since the last time back at the beginning matter. -/
theorem reaches_afterActs (w : Window) (acts : List Act) :
    Reaches w (sinceRewind acts) ((atStart w).afterActs acts) := by
  induction acts using List.reverseRecOn with
  | nil => exact reaches_atStart w
  | append_singleton acts a ih =>
    rw [afterActs_concat]
    by_cases ha : a = .rewind
    · -- going back leaves nothing of the acts before but the window
      subst ha
      rw [sinceRewind_rewind]
      have hrewind : ((atStart w).afterActs acts).act .rewind = atStart w :=
        congrArg atStart ih.window_eq
      rw [hrewind]
      exact reaches_atStart w
    · rw [sinceRewind_concat acts ha]
      exact ih.act ha

theorem committed_le_afterActs (c : Cursor) {acts : List Act} (h : .rewind ∉ acts) :
    c.committed ≤ (c.afterActs acts).committed := by
  induction acts generalizing c with
  | nil => exact Nat.le_refl _
  | cons a acts ih =>
    obtain ⟨ha, hacts⟩ := not_or.mp (mt List.mem_cons.mpr h)
    exact Nat.le_trans (committed_le_act c (Ne.symm ha)) (ih (c.act a) hacts)

/-! ## What can be seen -/

/-- **A character is seen** if it stands before the end of the window. -/
theorem peek_eq {text : List Char} {c : Cursor} {stop : Nat} (h : c.window.text = text.take stop)
    (offset : Nat) :
    Reader.peek c offset =
      if c.position + offset < stop then text[c.position + offset]? else none := by
  change (c.window.text.drop c.position)[offset]? = _
  rw [List.getElem?_drop, h, List.getElem?_take]

/-- **A piece is cut at the end of the window**, and is empty if nothing is between its ends. -/
theorem slice_eq {text : List Char} {c : Cursor} {stop : Nat} (h : c.window.text = text.take stop)
    (i j : Nat) : c.slice i j = String.ofList ((text.take (min j stop)).drop i) := by
  rw [slice, h, ← List.drop_take, List.take_take]

/-! ## Machine words -/

/-- **The sums of a history fit**: wherever an act adds to the position, the sum has no more than 64
bits. -/
def SumsFit (start stop : Nat) (acts : List Act) : Prop :=
  ∀ before a, before ++ [a] <+: acts →
    reached start stop (sinceRewind before) + a.summand ≤ maxPosition

/-- What is added to a position in the window is enough to look at. -/
theorem SumsFit.of_forall_le {start stop : Nat} {acts : List Act}
    (h : ∀ a ∈ acts, stop + a.summand ≤ maxPosition) : SumsFit start stop acts := by
  intro before a hbefore
  have ha : a ∈ acts := hbefore.subset (List.mem_append_right _ (List.mem_singleton.mpr rfl))
  exact Nat.le_trans (Nat.add_le_add_right (Nat.min_le_right ..) _) (h a ha)

theorem SumsFit.of_concat {start stop : Nat} {acts : List Act} {a : Act}
    (h : SumsFit start stop (acts ++ [a])) : SumsFit start stop acts :=
  fun before b hbefore => h before b (hbefore.trans (List.prefix_append acts [a]))

end Cursor

namespace Checked

open Cursor

/-- What an act leaves behind, if it does not fail. -/
def act? (s : Checked) : Act → Option Checked
  | .advance n flushing => s.advance? n flushing
  | .flush position => some (s.flush position)
  | .rewind => some s.rewind
  | .peek offset => (s.peek? offset).map fun _ => s
  | .slice start stop => (s.slice? start stop).map fun _ => s

/-- What some acts leave behind, if none of them fails. -/
def performAll? (s : Checked) (acts : List Act) : Option Checked := acts.foldlM act? s

theorem performAll?_concat (s : Checked) (acts : List Act) (a : Act) :
    s.performAll? (acts ++ [a]) = (s.performAll? acts).bind (·.act? a) := by
  rw [performAll?, List.foldlM_append]
  simp only [List.foldlM_cons, List.foldlM_nil, bind_pure]
  rfl

/-- **The same place in the same window**, which is inside the text. -/
structure Mirrors (s : Checked) (c : Cursor) : Prop where
  text_eq : c.window.text = s.text.take s.stop
  stop_le : s.stop ≤ s.text.length
  start_eq : s.start = c.window.start
  position_eq : s.position = c.position
  committed_eq : s.committed = c.committed

theorem word?_of_le {n : Nat} (h : n ≤ maxPosition) : word? n = some n := if_pos h

namespace Mirrors

variable {s : Checked} {c : Cursor} (h : Mirrors s c)

include h

theorem stop_eq : c.window.stop = s.stop := by
  rw [Window.stop, h.text_eq, List.length_take_of_le h.stop_le]

/-- **What is left is not below zero.** -/
theorem left?_eq_some : s.left? = some c.left := by
  have hle : s.position ≤ s.stop := by
    rw [h.position_eq, ← h.stop_eq]
    exact c.position_le_stop
  rw [left?, difference?, if_pos hle, left, h.stop_eq, h.position_eq]

/-- **What is looked at is in the text**, or past the end of the window. -/
theorem peek?_eq_some {offset : Nat} (hfits : c.position + offset ≤ maxPosition) :
    s.peek? offset = some (Reader.peek c offset) := by
  rw [← h.position_eq] at hfits
  rw [peek_eq h.text_eq, ← h.position_eq, peek?, hasMore?, word?_of_le hfits]
  by_cases hlt : s.position + offset < s.stop
  · have hin := Nat.lt_of_lt_of_le hlt h.stop_le
    simp [hlt, List.getElem?_eq_getElem hin]
  · simp [hlt]

/-- **What is cut out is in the text.** -/
theorem slice?_eq_some (i j : Nat) : s.slice? i j = some (c.slice i j) := by
  rw [slice_eq h.text_eq, slice?]
  split
  · next hle =>
    have hnil : (s.text.take (min j s.stop)).drop i = [] := by
      rw [List.drop_eq_nil_iff]
      exact Nat.le_trans (List.length_take_le ..) hle
    rw [hnil]
  · next hlt =>
    have hin : min j s.stop ≤ s.text.length := Nat.le_trans (Nat.min_le_right ..) h.stop_le
    rw [extract?, if_pos ⟨Nat.le_of_not_le hlt, hin⟩, Option.map_eq_map, Option.map_some]

theorem flush (p : Nat) : Mirrors (s.flush p) (c.commit p) := by
  have hle := c.committed_le_stop
  rw [h.stop_eq] at hle
  have hmax : (c.commit p).committed = max s.committed (min p s.stop) := by
    rw [h.committed_eq, ← h.stop_eq]
    rfl
  unfold Checked.flush
  split
  · next hlt =>
    refine ⟨h.text_eq, h.stop_le, h.start_eq, h.position_eq, ?_⟩
    rw [hmax]
    simp only
    rw [h.committed_eq] at hlt ⊢
    omega
  · next hge =>
    refine ⟨h.text_eq, h.stop_le, h.start_eq, h.position_eq, ?_⟩
    rw [hmax]
    omega

theorem skip (n : Nat) :
    Mirrors { s with position := min (s.position + n) s.stop } (c.skip n) := by
  refine ⟨h.text_eq, h.stop_le, h.start_eq, ?_, h.committed_eq⟩
  simp only
  rw [h.position_eq, ← h.stop_eq]
  rfl

theorem rewind : Mirrors s.rewind c.rewind :=
  ⟨h.text_eq, h.stop_le, h.start_eq, h.start_eq, h.start_eq⟩

/-- **No act fails** whose sum fits. -/
theorem act? {a : Act} (hfits : c.position + a.summand ≤ maxPosition) :
    ∃ s', s.act? a = some s' ∧ Mirrors s' (c.act a) := by
  cases a with
  | advance n flushing =>
    have hsum : s.position + n ≤ maxPosition := h.position_eq.symm ▸ hfits
    have hskip := h.skip n
    rw [Checked.act?, advance?, word?_of_le hsum]
    cases flushing with
    | false => exact ⟨_, rfl, hskip⟩
    | true =>
      refine ⟨_, rfl, ?_⟩
      have hflush := hskip.flush (min (s.position + n) s.stop)
      have hposition : min (s.position + n) s.stop = (c.skip n).position := hskip.position_eq
      rwa [hposition] at hflush ⊢
  | flush p => exact ⟨_, rfl, h.flush p⟩
  | rewind => exact ⟨_, rfl, h.rewind⟩
  | peek offset =>
    have hpeek : s.peek? offset = some (Reader.peek c offset) := h.peek?_eq_some hfits
    rw [Checked.act?, hpeek]
    exact ⟨s, rfl, h⟩
  | slice i j =>
    rw [Checked.act?, h.slice?_eq_some]
    exact ⟨s, rfl, h⟩

end Mirrors

/-- **No history fails** whose sums fit. -/
theorem mirrors_performAll? {s : Checked} {w : Window} (h : Mirrors s (Cursor.atStart w))
    {acts : List Act} (hfits : SumsFit w.start w.stop acts) :
    ∃ s', s.performAll? acts = some s' ∧ Mirrors s' ((Cursor.atStart w).afterActs acts) := by
  induction acts using List.reverseRecOn with
  | nil => exact ⟨s, rfl, h⟩
  | append_singleton acts a ih =>
    obtain ⟨s', hs', hmirrors⟩ := ih hfits.of_concat
    have hsum := hfits acts a (List.prefix_refl _)
    rw [← (reaches_afterActs w acts).position_eq] at hsum
    rw [performAll?_concat, hs', afterActs_concat]
    exact hmirrors.act? hsum

end Checked

namespace Cursor

theorem mirrors_atStart {text : List Char} {start : Nat} {stop : Option Nat} {w : Window}
    (h : Window.of? text start stop = .ok w) :
    Checked.Mirrors (.atStart text start (stop.getD text.length)) (atStart w) := by
  simp only [Window.of?] at h
  split at h
  · next hle =>
    obtain rfl := Except.ok.inj h
    exact ⟨rfl, hle.2, rfl, rfl, rfl⟩
  · cases h

/-- **What a history tells of a cursor** that has been through it from the beginning of the window
of a text between two positions. -/
structure StateAfter (text : List Char) (start stop : Nat) (acts : List Act) (c : Cursor) :
    Prop where
  position_eq : c.position = min (start + distance (sinceRewind acts)) stop
  committed_eq :
    ∃ m, IsGreatest (flushedTo start stop (sinceRewind acts)) m ∧ c.committed = min stop m
  position_bounds : start ≤ c.position ∧ c.position ≤ stop ∧ stop ≤ text.length
  committed_bounds : start ≤ c.committed ∧ c.committed ≤ stop
  /-- What is flushed stays so until the cursor goes back. -/
  committed_le : ∀ more, .rewind ∉ more → c.committed ≤ (c.afterActs more).committed
  left_eq : c.position + c.left = stop
  peek_eq : ∀ offset,
    Reader.peek c offset =
      if c.position + offset < stop then text[c.position + offset]? else none
  peek_eq_none_iff : ∀ offset, Reader.peek c offset = none ↔ stop ≤ c.position + offset
  slice_eq : ∀ i j, c.slice i j = String.ofList ((text.take (min j stop)).drop i)
  slice_eq_empty : ∀ i j, min j stop ≤ i → c.slice i j = ""

theorem Reaches.stateAfter {text : List Char} {stop : Nat} {w : Window} {acts : List Act}
    {c : Cursor} (h : Reaches w (sinceRewind acts) c) (htext : w.text = text.take stop)
    (hle : stop ≤ text.length) : StateAfter text w.start stop acts c := by
  have hstop : w.stop = stop := by rw [Window.stop, htext, List.length_take_of_le hle]
  have hwindow : c.window.text = text.take stop := by rw [h.window_eq, htext]
  have hposition := c.position_le_stop
  have hcommitted := c.committed_le_stop
  rw [h.window_eq, hstop] at hposition hcommitted
  obtain ⟨m, hm, hlimit⟩ := h.committed_eq
  rw [hstop] at hm hlimit
  constructor
  · rw [h.position_eq, hstop]
    rfl
  · exact ⟨m, hm, hlimit.trans (Nat.min_comm ..)⟩
  · exact ⟨h.window_eq ▸ c.start_le_position, hposition, hle⟩
  · exact ⟨h.window_eq ▸ c.start_le_committed, hcommitted⟩
  · exact fun more hmore => c.committed_le_afterActs hmore
  · rw [left, h.window_eq, hstop]
    exact Nat.add_sub_cancel' hposition
  · exact Cursor.peek_eq hwindow
  · intro offset
    rw [Cursor.peek_eq hwindow]
    split
    · next hlt => exact iff_of_false (by simp [Nat.lt_of_lt_of_le hlt hle]) (Nat.not_le.mpr hlt)
    · next hge => exact iff_of_true rfl (Nat.not_lt.mp hge)
  · exact Cursor.slice_eq hwindow
  · intro i j hij
    have hnil : (text.take (min j stop)).drop i = [] :=
      List.drop_eq_nil_iff.mpr (Nat.le_trans (List.length_take_le ..) hij)
    rw [Cursor.slice_eq hwindow, hnil]

/-- **The history of a cursor tells its state.**  Take any window of a text, and any acts.  The
position is as far from the beginning as the acts since the last time back there went, and the
committed position is the greatest that they flushed up to, both limited to the end.  So both stay
in the window, and what is seen and cut out is that part of the text that lies there.  If no sum has
more than 64 bits, a cursor that checks its arithmetic and its places in the text never fails, and
goes the same way and sees the same. -/
theorem history_tells_state {text : List Char} {start : Nat} {stop : Option Nat} {w : Window}
    (hw : Window.of? text start stop = .ok w) (acts : List Act) :
    ∃ c last, c = (atStart w).afterActs acts ∧ last = stop.getD text.length ∧
      StateAfter text start last acts c ∧
      (SumsFit start last acts →
        ∃ s, (Checked.atStart text start last).performAll? acts = some s ∧ s.Mirrors c ∧
          s.left? = some c.left ∧
          (∀ offset, c.position + offset ≤ maxPosition →
            s.peek? offset = some (Reader.peek c offset)) ∧
          ∀ i j, s.slice? i j = some (c.slice i j)) := by
  have hmirrors := mirrors_atStart hw
  have hstart : start = w.start := hmirrors.start_eq
  have hstop : w.stop = stop.getD text.length := hmirrors.stop_eq
  refine ⟨_, _, rfl, rfl, ?_, fun hfits => ?_⟩
  · rw [hstart]
    exact (reaches_afterActs w acts).stateAfter hmirrors.text_eq hmirrors.stop_le
  · rw [hstart, ← hstop] at hfits
    obtain ⟨s, hs, h⟩ := Checked.mirrors_performAll? hmirrors hfits
    exact ⟨s, hs, h, h.left?_eq_some, fun _ hsum => h.peek?_eq_some hsum, h.slice?_eq_some⟩

/-- Behind two characters of a text: a flush past the end, going back, a flush ahead of the
position, and a step past the end that flushes nothing. -/
theorem history_tells_state_of_rewind :
    ∃ c s, c = (atStart ⟨"..abc".toList, 2, by decide⟩).afterActs
        [.advance 2 true, .flush 9, .rewind, .flush 4, .peek 7, .advance 10 false, .slice 3 100] ∧
      c.position = 5 ∧ c.committed = 4 ∧ c.left = 0 ∧ c.slice 3 100 = "bc" ∧
      (Checked.atStart "..abc..".toList 2 5).performAll?
        [.advance 2 true, .flush 9, .rewind, .flush 4, .peek 7, .advance 10 false, .slice 3 100] =
          some s ∧ s.position = 5 ∧ s.committed = 4 := by
  have hw : Window.of? "..abc..".toList 2 (some 5) = .ok ⟨"..abc".toList, 2, by decide⟩ := rfl
  obtain ⟨c, last, rfl, rfl, hstate, hchecked⟩ := history_tells_state hw
    [.advance 2 true, .flush 9, .rewind, .flush 4, .peek 7, .advance 10 false, .slice 3 100]
  obtain ⟨s, hs, hmirrors, -⟩ := hchecked (.of_forall_le (by simp [Act.summand, maxPosition]))
  exact ⟨_, s, rfl, rfl, rfl, rfl, rfl, hs, hmirrors.position_eq, hmirrors.committed_eq⟩

end Cursor

end StyleLex
