import Mathlib.Order.Bounds.Basic
import StyleLex.Proofs.Grammar

/-!
# Proofs/Stops — where a scan stops

`Proofs/Grammar` says what a scanner may count, and not where it has to stop.  This is said here.
`EndsAt Stop len n`: the scan of `len` characters ends at `n`, which is the first place that is a
stop, or the end if there is none.  `MaximalRun p run rest`: of the characters `run ++ rest` exactly
`run` is the run of the property `p`.

Both tell the end from the characters alone, and there is one end only (`EndsAt.unique`,
`MaximalRun.unique`).  Places are counted from somewhere, so `EndsAt.shift` counts them from
somewhere before that: it is the step of every scanner that goes on, and takes a scanner that looks
ahead to the positions of a text.
-/

namespace StyleLex

namespace Grammar

/-! ## The first stop -/

/-- **Where a scan of `len` characters ends**: at the first stop, or at the end if there is none. -/
inductive EndsAt (Stop : Nat → Prop) (len : Nat) : Nat → Prop where
  | stop {n : Nat} (h : IsLeast {i | Stop i} n) : EndsAt Stop len n
  | none (h : ∀ i, ¬Stop i) : EndsAt Stop len len

namespace EndsAt

variable {Stop Stop' : Nat → Prop} {len m n k : Nat}

/-- A scan ends in one place only. -/
theorem unique (hm : EndsAt Stop len m) (hn : EndsAt Stop len n) : m = n := by
  cases hm with
  | stop hm =>
    cases hn with
    | stop hn => exact hm.unique hn
    | none hnone => exact absurd hm.1 (hnone m)
  | none hnone =>
    cases hn with
    | stop hn => exact absurd hn.1 (hnone n)
    | none => rfl

/-- A scan that begins at a stop ends there. -/
theorem zero (h : Stop 0) : EndsAt Stop len 0 := .stop ⟨h, fun _ _ => Nat.zero_le _⟩

/-- **Counting from `k` characters before** moves the end, provided that these are no stops. -/
theorem shift (hbefore : ∀ i < k, ¬Stop' i) (hstop : ∀ i, Stop' (k + i) ↔ Stop i)
    (h : EndsAt Stop len n) : EndsAt Stop' (k + len) (k + n) := by
  have hbehind : ∀ i, Stop' i → ∃ j, i = k + j ∧ Stop j := fun i hi => by
    have hle : k ≤ i := Nat.le_of_not_lt fun hlt => hbefore i hlt hi
    obtain ⟨j, rfl⟩ := Nat.exists_eq_add_of_le hle
    exact ⟨j, rfl, (hstop j).mp hi⟩
  cases h with
  | stop hn =>
    refine .stop ⟨(hstop n).mpr hn.1, fun i hi => ?_⟩
    obtain ⟨j, rfl, hj⟩ := hbehind i hi
    exact Nat.add_le_add_left (hn.2 hj) k
  | none hnone =>
    refine .none fun i hi => ?_
    obtain ⟨j, rfl, hj⟩ := hbehind i hi
    exact hnone j hj

end EndsAt

/-! ## Maximal runs -/

/-- **A run of characters with a property** that the next character, if there is one, has not. -/
structure MaximalRun (p : Char → Bool) (run rest : List Char) : Prop where
  all : ∀ c ∈ run, p c = true
  stops : ∀ c ∈ rest.head?, p c = false

end Grammar

/-- What has a property and stands before something that has not is the run of that property. -/
theorem span_append {p : Char → Bool} {ds cs : List Char} (hds : ∀ c ∈ ds, p c = true)
    (hcs : ∀ c ∈ cs.head?, p c = false) :
    (ds ++ cs).takeWhile p = ds ∧ (ds ++ cs).dropWhile p = cs := by
  rw [List.takeWhile_append_of_pos hds, List.dropWhile_append_of_pos hds]
  cases cs with
  | nil => exact ⟨List.append_nil ds, rfl⟩
  | cons c cs =>
    have hc := Bool.eq_false_iff.mp (hcs c rfl)
    rw [List.takeWhile_cons_of_neg hc, List.dropWhile_cons_of_neg hc]
    exact ⟨List.append_nil ds, rfl⟩

namespace Grammar

variable {p : Char → Bool}

/-- There is one maximal run only. -/
theorem MaximalRun.unique {ds cs ds' cs' : List Char} (h : MaximalRun p ds cs)
    (h' : MaximalRun p ds' cs') (heq : ds ++ cs = ds' ++ cs') : ds = ds' ∧ cs = cs' := by
  obtain ⟨htake, hdrop⟩ := span_append h.all h.stops
  obtain ⟨htake', hdrop'⟩ := span_append h'.all h'.stops
  rw [← heq] at htake' hdrop'
  exact ⟨htake.symm.trans htake', hdrop.symm.trans hdrop'⟩

/-- **What is counted as a run is the maximal one.** -/
theorem maximalRun_take_run (p : Char → Bool) (cs : List Char) :
    MaximalRun p (cs.take (Extent.run p cs)) (cs.drop (Extent.run p cs)) where
  all := Extent.of_mem_take_run
  stops := fun c hc => by
    have hnot := List.head?_dropWhile_not p cs
    rw [Extent.dropWhile_eq_drop_run, Option.mem_def.mp hc] at hnot
    simpa using hnot

end Grammar

end StyleLex
