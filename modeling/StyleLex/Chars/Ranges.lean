/-!
# Chars/Ranges — sets of code points as rising ranges

A Unicode property is published as a list of inclusive code point ranges.  `CodeRanges` holds such
a list and `contains` searches it: the ranges rise, so the search stops at the first range that
begins above the code point, and a question about an ASCII character looks at a few ranges only.
`contains_iff` says that stopping there loses nothing.  Whether two sets have no member in common is
a question about their ranges too (`apart`).
-/

namespace StyleLex

/-- **A set of code points**, as inclusive ranges in rising order. -/
abbrev CodeRanges := List (Nat × Nat)

namespace CodeRanges

/-- Whether the code point `n` lies in one of the ranges. -/
def contains : CodeRanges → Nat → Bool
  | [], _ => false
  | (lo, hi) :: rest, n => lo ≤ n && (n ≤ hi || contains rest n)

/-- Every range is in order, the first begins at `low` or later and each of the others after the
end of the one before it. -/
def RisingFrom : Nat → CodeRanges → Prop
  | _, [] => True
  | low, (lo, hi) :: rest => low ≤ lo ∧ lo ≤ hi ∧ RisingFrom (hi + 1) rest

instance : ∀ (low : Nat) (rs : CodeRanges), Decidable (RisingFrom low rs)
  | _, [] => instDecidableTrue
  | low, (lo, hi) :: rest =>
      have : Decidable (RisingFrom (hi + 1) rest) := instDecidableRisingFrom (hi + 1) rest
      inferInstanceAs (Decidable (low ≤ lo ∧ lo ≤ hi ∧ RisingFrom (hi + 1) rest))

theorem RisingFrom.le_of_mem : ∀ {low : Nat} {rs : CodeRanges}, RisingFrom low rs →
    ∀ r ∈ rs, low ≤ r.1
  | _, _ :: _, ⟨hlow, hle, hrest⟩, r, hr => by
      rcases List.mem_cons.mp hr with rfl | hr
      · exact hlow
      · have := RisingFrom.le_of_mem hrest r hr
        omega

/-- **Stopping early loses nothing**: in rising ranges `contains` finds every member. -/
theorem contains_iff : ∀ {low : Nat} {rs : CodeRanges} {n : Nat}, RisingFrom low rs →
    (rs.contains n = true ↔ ∃ r ∈ rs, r.1 ≤ n ∧ n ≤ r.2)
  | _, [], _, _ => by simp [contains]
  | _, (lo, hi) :: rest, n, ⟨_, hle, hrest⟩ => by
      simp only [contains, Bool.and_eq_true, Bool.or_eq_true, decide_eq_true_eq,
        contains_iff hrest, List.mem_cons, exists_eq_or_imp]
      constructor
      · rintro ⟨h1, h2 | h2⟩
        · exact Or.inl ⟨h1, h2⟩
        · exact Or.inr h2
      · rintro (⟨h1, h2⟩ | ⟨r, hr, h1, h2⟩)
        · exact ⟨h1, Or.inl h2⟩
        · have := hrest.le_of_mem r hr
          exact ⟨by omega, Or.inr ⟨r, hr, h1, h2⟩⟩

/-! ## Two sets -/

/-- Whether no two ranges meet. -/
def apart (rs ss : CodeRanges) : Bool :=
  rs.all fun r => ss.all fun s => r.2 < s.1 || s.2 < r.1

/-- **Sets whose ranges do not meet have no member in common.** -/
theorem not_contains_of_apart {rs ss : CodeRanges} {low low' n : Nat} (hrs : RisingFrom low rs)
    (hss : RisingFrom low' ss) (h : rs.apart ss = true) (hn : rs.contains n = true) :
    ss.contains n = false := by
  refine Bool.eq_false_iff.mpr fun hm => ?_
  obtain ⟨r, hr, hrlo, hrhi⟩ := (contains_iff hrs).mp hn
  obtain ⟨s, hs, hslo, hshi⟩ := (contains_iff hss).mp hm
  have hmeet := List.all_eq_true.mp (List.all_eq_true.mp h r hr) s hs
  simp only [Bool.or_eq_true, decide_eq_true_eq] at hmeet
  omega

end CodeRanges

end StyleLex
