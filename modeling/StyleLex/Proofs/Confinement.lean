import StyleLex.Proofs.Reset
import StyleLex.Proofs.Stepwise

/-!
# Proofs/Confinement — the lexer never leaves its window

A cursor that is asked for too much stops at the end of its window without a word.  The lexer never
relies on that.  A `Strict` source refuses to consume more than is left and to cut what is not in
the window, and what it grants is not cut short (`Strict.position_of_advance`,
`Strict.length_of_slice`).  Whatever the lexer is asked to do, and wherever in the window it was
made, a strict source refuses none of the calls that it makes on the way, and the answers are those
of a cursor (`strict_refuses_nothing`).

A strict source behaves like its cursor where it is asked rightly (`Strict.faithful`), so the lexer
goes along with the measured tokens.  That takes the `*/` of a split comment to stand ahead, which
every call keeps (`closesAhead_call`).  `perform_gives` is the induction over the calls.
-/

namespace StyleLex

/-! ## What a strict source grants -/

namespace Strict

variable {s : Strict} {n start stop : Nat}

/-- A piece inside the window is cut as by the cursor. -/
theorem slice_eq_ok (hstart : s.cursor.window.start ≤ start) (hle : start ≤ stop)
    (hstop : stop ≤ s.cursor.window.stop) :
    s.slice start stop = .ok (s.cursor.slice start stop) := if_pos ⟨hstart, hle, hstop⟩

/-- Characters that are left are consumed as by the cursor. -/
theorem advance_eq_ok (h : n ≤ s.cursor.left) (flushing : Bool) :
    s.advance n flushing = .ok ⟨Id.run (s.cursor.advance n flushing)⟩ := by
  rw [advance, if_pos h]
  cases flushing <;> rfl

/-- **Consuming that is granted** is not stopped by the end of the window. -/
theorem position_of_advance {s' : Strict} {flushing : Bool}
    (h : s.advance n flushing = .ok s') : s'.cursor.position = s.cursor.position + n := by
  by_cases hle : n ≤ s.cursor.left
  · rw [advance_eq_ok hle] at h
    obtain rfl := Except.ok.inj h
    rw [← Cursor.length_ahead] at hle
    rw [← Cursor.position_skip hle]
    cases flushing <;> rfl
  · rw [advance, if_neg hle] at h
    cases h

/-- **A piece that is granted** is whole. -/
theorem length_of_slice {piece : String} (h : s.slice start stop = .ok piece) :
    piece.length = stop - start := by
  by_cases hin : s.cursor.window.start ≤ start ∧ start ≤ stop ∧ stop ≤ s.cursor.window.stop
  · rw [slice, if_pos hin] at h
    obtain rfl := Except.ok.inj h
    rw [Cursor.slice, String.length_ofList, List.length_take, List.length_drop]
    exact Nat.min_eq_left (Nat.sub_le_sub_right hin.2.2 start)
  · rw [slice, if_neg hin] at h
    cases h

/-- **A strict source behaves like its cursor** where it is asked rightly. -/
theorem faithful :
    Source.Faithful (Except Misuse) (fun (s : Strict) c => s.cursor = c) (fun _ => True) where
  add_eq _ := rfl
  sub_eq _ _ := rfl
  fits_of_le _ _ := trivial
  tell_eq := by rintro s _ rfl; rfl
  ahead_eq := by rintro s _ rfl; rfl
  hasMore_eq := by rintro s _ rfl offset -; rfl
  look_eq := by rintro s _ rfl offset -; rfl
  count_eq := by rintro s _ rfl offset - k; rfl
  run_eq := by rintro s _ rfl offset - p; rfl
  slice_eq := by rintro s _ rfl i j hi hij hj; exact slice_eq_ok hi hij hj
  advance_gives := by
    rintro s _ rfl n hn flushing
    rw [Cursor.length_ahead] at hn
    exact ⟨_, advance_eq_ok hn flushing, rfl⟩
  flush_gives := by rintro s _ rfl p; exact ⟨_, rfl, rfl⟩
  rewind_gives := by rintro s _ rfl; exact ⟨_, rfl, rfl⟩

end Strict

/-- A cursor behaves like itself. -/
theorem Cursor.faithful : Source.Faithful Id (fun s c : Cursor => s = c) (fun _ => True) where
  add_eq _ := rfl
  sub_eq _ _ := rfl
  fits_of_le _ _ := trivial
  tell_eq := by rintro s _ rfl; rfl
  ahead_eq := by rintro s _ rfl; rfl
  hasMore_eq := by rintro s _ rfl offset -; rfl
  look_eq := by rintro s _ rfl offset -; rfl
  count_eq := by rintro s _ rfl offset - k; rfl
  run_eq := by rintro s _ rfl offset - p; rfl
  slice_eq := by rintro s _ rfl i j - - -; rfl
  advance_gives := by rintro s _ rfl n - flushing; exact ⟨_, rfl, rfl⟩
  flush_gives := by rintro s _ rfl p; exact ⟨_, rfl, rfl⟩
  rewind_gives := by rintro s _ rfl; exact ⟨_, rfl, rfl⟩

namespace Tokenizer

/-! ## Any calls -/

section Calls

variable {σ : Type} {m : Type → Type} [Monad m] [Counting m] [Reader σ] [Source m σ] [Scanner m σ]

/-- The token that a call gives, if it gives one, and the tokenizer after it, the lexer going call
by call. -/
def ask (t : Tokenizer σ) : Call → m (Option Token × Tokenizer σ)
  | .next => do
    match ← t.lexNext? with
    | none => return (none, t)
    | some (token, t') => return (some token, t')
  | .reset => do
    let t' ← t.lexReset
    return (none, t')

/-- What some calls give, the first one first, and the tokenizer after them. -/
def perform (t : Tokenizer σ) : List Call → m (List (Option Token) × Tokenizer σ)
  | [] => return ([], t)
  | c :: calls => do
    let (answer, t') ← t.ask c
    let (answers, t'') ← t'.perform calls
    return (answer :: answers, t'')

end Calls

/-- What some calls give by measured tokens, the first one first. -/
def answers (u : Tokenizer Cursor) : List Call → List (Option Token)
  | [] => []
  | c :: calls => (u.call c).1 :: (u.call c).2.answers calls

/-- **Every call keeps the `*/` of a split comment ahead**, since after a reset none waits. -/
theorem closesAhead_call {u : Tokenizer Cursor} (hi : u.ClosesAhead) (c : Call) :
    (u.call c).2.ClosesAhead :=
  call_keeps hi (fun _ h => closesAhead_after h) (fun hc => Bool.noConfusion hc) c

/-- Every call leaves lines and columns counted from 1. -/
theorem counts_call {u : Tokenizer Cursor} (hc : u.tracker.relative.Counts) (c : Call) :
    (u.call c).2.tracker.relative.Counts :=
  call_keeps (P := fun u => u.tracker.relative.Counts) hc (fun lx _ => counts_after hc lx)
    Location.counts_first c

section Faithful

variable {σ : Type} {m : Type → Type} [Monad m] [Counting m] [Reader σ] [Source m σ] [Scanner m σ]
  [LawfulMonad m] {R : σ → Cursor → Prop} (hf : Source.Faithful m R (fun _ => True))
  {u : Tokenizer Cursor} {t : Tokenizer σ}

include hf

/-- **A call is answered as by measured tokens.** -/
theorem ask_gives (h : Tracks R (fun _ => True) u t) (hi : u.ClosesAhead)
    (hc : u.tracker.relative.Counts) (c : Call) :
    Gives (t.ask c : m (Option Token × Tokenizer σ)) fun given =>
      given.1 = (u.call c).1 ∧ Tracks R (fun _ => True) (u.call c).2 given.2 := by
  cases c with
  | next =>
    cases hlx : u.lexeme? with
    | none =>
      rw [call_next_of_none hlx, ask, lexNext?_of_none hf h hlx, pure_bind]
      exact gives_pure ⟨rfl, h⟩
    | some lx =>
      have hcurrent : u.tracker.currentM = (pure u.location : m Location) :=
        Location.withinM_eq hf.toExact hc trivial (fun _ => trivial) trivial
      rw [call_next_of_some hlx]
      refine (lexNext?_gives hf h hi hlx hcurrent).bind ?_
      rintro _ ⟨t', rfl, h'⟩
      exact gives_pure ⟨rfl, h'⟩
  | reset =>
    refine (lexReset_gives hf h ⟨trivial, trivial, trivial⟩).bind fun t' h' => ?_
    exact gives_pure ⟨rfl, h'⟩

/-- **Any calls are answered as by measured tokens.** -/
theorem perform_gives (h : Tracks R (fun _ => True) u t) (hi : u.ClosesAhead)
    (hc : u.tracker.relative.Counts) (calls : List Call) :
    Gives (t.perform calls : m (List (Option Token) × Tokenizer σ)) fun given =>
      given.1 = u.answers calls ∧ Tracks R (fun _ => True) (u.afterCalls calls) given.2 := by
  induction calls generalizing u t with
  | nil => exact gives_pure ⟨rfl, h⟩
  | cons c calls ih =>
    refine (ask_gives hf h hi hc c).bind ?_
    rintro ⟨answer, t'⟩ ⟨rfl, h'⟩
    refine (ih h' (closesAhead_call hi c) (counts_call hc c)).bind ?_
    rintro ⟨answers, t''⟩ ⟨rfl, h''⟩
    exact gives_pure ⟨rfl, h''⟩

end Faithful

/-- The same tokenizer, its source being one that refuses to leave the window. -/
def strict (u : Tokenizer Cursor) : Tokenizer Strict where
  source := ⟨u.source⟩
  config := u.config
  tracker := u.tracker
  closing := u.closing

theorem eq_strict_of_tracks {u : Tokenizer Cursor} {t : Tokenizer Strict} {Fits : Nat → Prop}
    (h : Tracks (fun (s : Strict) c => s.cursor = c) Fits u t) : t = u.strict := by
  obtain ⟨⟨s⟩, config, tracker, closing⟩ := t
  obtain ⟨rfl, rfl, rfl, rfl, -⟩ := h
  rfl

theorem eq_of_tracks {u t : Tokenizer Cursor} {Fits : Nat → Prop}
    (h : Tracks (fun s c : Cursor => s = c) Fits u t) : t = u := by
  obtain ⟨s, config, tracker, closing⟩ := t
  obtain ⟨rfl, rfl, rfl, rfl, -⟩ := h
  rfl

/-- **The lexer never leaves its window.**  Take a tokenizer that reads any window from anywhere in
it, and any calls on it.  Going call by call over a source that refuses to leave the window, the
lexer is refused nothing: all it consumes is left, and all it cuts out lies in the window, in order.
It gives the same answers over a cursor, and these are the measured tokens.  What the strict source
grants is neither stopped nor cut short by the end of the window. -/
theorem strict_refuses_nothing (c : Cursor) (config : Config) (calls : List Call) :
    ((ofSource (Strict.mk c) config).perform calls : Except Misuse _) =
        .ok ((ofSource c config).answers calls, ((ofSource c config).afterCalls calls).strict) ∧
      Id.run ((ofSource c config).perform calls) =
        ((ofSource c config).answers calls, (ofSource c config).afterCalls calls) ∧
      (∀ (s s' : Strict) (n : Nat) (flushing : Bool), s.advance n flushing = .ok s' →
        s'.cursor.position = s.cursor.position + n) ∧
      ∀ (s : Strict) (start stop : Nat) (piece : String), s.slice start stop = .ok piece →
        piece.length = stop - start := by
  have hi := closesAhead_ofSource c config
  have hc := counts_ofSource c config
  refine ⟨?_, ?_, fun _ _ _ _ => Strict.position_of_advance, fun _ _ _ _ => Strict.length_of_slice⟩
  · obtain ⟨⟨given, t⟩, heq, rfl, h⟩ := perform_gives (t := ofSource (Strict.mk c) config)
      Strict.faithful ⟨rfl, rfl, rfl, rfl, trivial, trivial, trivial⟩ hi hc calls
    obtain rfl := eq_strict_of_tracks h
    exact heq
  · obtain ⟨⟨given, t⟩, heq, rfl, h⟩ := perform_gives (t := ofSource c config)
      Cursor.faithful ⟨rfl, rfl, rfl, rfl, trivial, trivial, trivial⟩ hi hc calls
    obtain rfl := eq_of_tracks h
    exact heq

end Tokenizer

end StyleLex
