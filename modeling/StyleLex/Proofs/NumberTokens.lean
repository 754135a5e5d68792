import StyleLex.Chars.Lemmas
import StyleLex.Proofs.DecimalWords
import StyleLex.Proofs.Stops
import StyleLex.Proofs.TokenShape

/-!
# Proofs/NumberTokens — the numbers in the tokens of a text

The text of a number, a percentage or a dimension is a sign, a numeral and what its kind has behind
that (`Token.Written`).  There is one way only to read it so (`Token.Written.unique`), because a
written numeral is read again (`Numeral.Valid.read_append`).

So the number of the token can be told from its text: `tokens_number` says that it is exact or cut
off (`Proofs/DecimalValue`), that words of 128 bits are enough to read it, and that the library
which makes numbers is never short of one (`Proofs/DecimalWords`).
-/

namespace StyleLex

open Chars

/-! ## Numerals as they are written -/

namespace Numeral.Valid

variable {n : Numeral} (h : n.Valid)

include h

theorem getD_places : ∀ c ∈ n.places.getD [], isDigit c = true := by
  cases hp : n.places with
  | none => exact fun _ hc => nomatch hc
  | some places => exact h.places_digits places hp

theorem exists_digit : ∃ c cs, n.chars = c :: cs ∧ isDigit c = true := by
  obtain ⟨c, cs, hcs⟩ := List.exists_cons_of_ne_nil h.whole_ne_nil
  have hc := h.whole_digits c (hcs ▸ List.mem_cons_self ..)
  rw [chars, hcs]
  cases n.places with
  | none => exact ⟨c, cs, rfl, hc⟩
  | some places => exact ⟨c, cs ++ '.' :: places, rfl, hc⟩

/-- **A written numeral is read again**, provided that what follows does not continue it. -/
theorem read_append {trail : List Char}
    (htrail : ∀ c ∈ trail.head?, isDigit c = false ∧ c ≠ '.') :
    read (n.chars ++ trail) = (n, trail) := by
  have hstop : ∀ c ∈ trail.head?, isDigit c = false := fun c hc => (htrail c hc).1
  obtain ⟨whole, places⟩ := n
  cases places with
  | none =>
    obtain ⟨htake, hdrop⟩ := span_append h.whole_digits hstop
    have hpoint : ((whole ++ trail).dropWhile isDigit).head? ≠ some '.' := by
      rw [hdrop]
      exact fun hdot => (htrail '.' hdot).2 rfl
    rw [chars, read_no_point hpoint, htake, hdrop]
  | some places =>
    have hdot : ∀ c ∈ ('.' :: (places ++ trail)).head?, isDigit c = false := by
      intro c hc
      obtain rfl := Option.some.inj hc
      decide
    obtain ⟨hwhole, hpoint⟩ := span_append h.whole_digits hdot
    obtain ⟨htake, hdrop⟩ := span_append (h.places_digits places rfl) hstop
    rw [chars, List.append_assoc, List.cons_append, read_point hpoint, hwhole, htake, hdrop]

end Numeral.Valid

/-! ## The texts of numbers -/

/-- What stands behind the digits of a number, a percentage and a dimension. -/
inductive Trails : Kind → List Char → Prop where
  | number : Trails .number []
  | percentage : Trails .percentage ['%']
  | dimension {unit : List Char} (ne : unit ≠ []) (letters : ∀ c ∈ unit, isLetter c = true) :
      Trails .dimension unit

/-- What stands behind the digits does not continue them. -/
theorem Trails.head {kind : Kind} {trail : List Char} (h : Trails kind trail) :
    ∀ c ∈ trail.head?, isDigit c = false ∧ c ≠ '.' := by
  cases h with
  | number => exact fun c hc => nomatch hc
  | percentage =>
    intro c hc
    obtain rfl := Option.some.inj hc
    decide
  | dimension _ letters =>
    intro c hc
    have hletter := letters c (List.mem_of_mem_head? hc)
    refine ⟨Bool.eq_false_iff.mpr fun hd => ?_, ?_⟩
    · rw [not_isLetter_of_isDigit hd] at hletter
      cases hletter
    · rintro rfl
      exact absurd hletter (by decide)

namespace Token

open Grammar

/-- **The text of a number token**: a sign, a numeral, and what its kind has behind that. -/
structure Written (token : Token) (negative : Bool) (n : Numeral) (trail : List Char) : Prop where
  valid : n.Valid
  trails : Trails token.kind trail
  text_eq : token.text.toList = sign negative ++ (n.chars ++ trail)

/-- **There is one way only to read the text of a number.** -/
theorem Written.unique {token : Token} {negative negative' : Bool} {n n' : Numeral}
    {trail trail' : List Char} (h : token.Written negative n trail)
    (h' : token.Written negative' n' trail') : negative = negative' ∧ n = n' := by
  have heq := h.text_eq.symm.trans h'.text_eq
  obtain ⟨c, cs, hcs, hc⟩ := h.valid.exists_digit
  obtain ⟨c', cs', hcs', hc'⟩ := h'.valid.exists_digit
  -- a numeral begins with a digit, so the first character tells the sign
  have hsign : negative = negative' := by
    rw [hcs, hcs'] at heq
    cases negative with
    | false =>
      cases negative' with
      | false => rfl
      | true =>
        obtain ⟨rfl, -⟩ := List.cons.inj heq
        exact absurd hc (by decide)
    | true =>
      cases negative' with
      | true => rfl
      | false =>
        obtain ⟨rfl, -⟩ := List.cons.inj heq
        exact absurd hc' (by decide)
  subst hsign
  have hread := congrArg Numeral.read (List.append_cancel_left heq)
  rw [h.valid.read_append h.trails.head, h'.valid.read_append h'.trails.head] at hread
  exact ⟨rfl, congrArg Prod.fst hread⟩

/-- **A token with a number has digits**, and they are what is read of it. -/
theorem exists_written {token : Token}
    (h : Shape token.kind token.text.toList token.payload)
    (hk : token.kind = .number ∨ token.kind = .percentage ∨ token.kind = .dimension) :
    ∃ negative n trail, token.Written negative n trail ∧
      token.reading? = some (n.value negative) := by
  obtain ⟨kind, start, stop, text, location, payload⟩ := token
  have hwritten : ∀ {negative : Bool} {n : Numeral} {trail : List Char}, n.Valid →
      Trails kind trail → text.toList = sign negative ++ n.chars ++ trail →
        Written ⟨kind, start, stop, text, location, payload⟩ negative n trail :=
    fun hn htrail htext => ⟨hn, htrail, htext.trans (List.append_assoc ..)⟩
  simp only [Token.reading?] at h hk ⊢
  generalize hchars : text.toList = chars at h
  cases h with
  | number hn => exact ⟨_, _, [], hwritten hn .number (by rw [hchars, List.append_nil]), rfl⟩
  | percentage hn => exact ⟨_, _, _, hwritten hn .percentage hchars, rfl⟩
  | dimension hn ne letters => exact ⟨_, _, _, hwritten hn (.dimension ne letters) hchars, rfl⟩
  | _ => simp at hk

end Token

/-! ## The numbers of a text -/

namespace Tokenizer

/-- **The numbers of a text are exact, or cut off at the last digit that fits.**  Take any library
of decimal numbers that has a number for each mantissa of at most 96 bits with up to 28 places.  An
integer part of more than 96 bits gives the largest or the smallest number of the library.
Otherwise the digits that fit give the number.  Reading them in words of 128 bits never fails, and
the library is never short of the number, so that none is put in its place. -/
theorem tokens_number {δ : Type} {lib : DecimalLibrary δ} (hlib : lib.MakesParts)
    (text : List Char) (config : Config) {t : Tokenizer Cursor}
    (h : ofConfig? text config = .ok t) :
    ∀ token ∈ t.tokens,
      token.kind = .number ∨ token.kind = .percentage ∨ token.kind = .dimension →
      ∃ d, token.number? lib = some d ∧ (∃ negative n trail, token.Written negative n trail) ∧
        ∀ negative n trail, token.Written negative n trail →
          lib.ReadFrom negative n.whole (n.places.getD []) d ∧
            ∃ a, Accumulator.read? n.whole (n.places.getD []) = some a ∧
              a.number? lib negative = some d ∧
              (a.overflow = false → ∃ m, a.signed? negative = some m ∧
                lib.ofParts? m a.scale = some d) := by
  intro token hmem hk
  have hshape := (run_rest t).shape (closesAhead_of_ofConfig? h) token hmem
  obtain ⟨negative, n, trail, hwritten, hreading⟩ := Token.exists_written hshape hk
  refine ⟨lib.number (n.value negative), congrArg (Option.map lib.number) hreading,
    ⟨negative, n, trail, hwritten⟩, fun negative' n' trail' hwritten' => ?_⟩
  obtain ⟨rfl, rfl⟩ := hwritten.unique hwritten'
  exact ⟨hlib.readFrom_number negative n.whole hwritten.valid.getD_places,
    hlib.exists_number?_eq_some negative hwritten.valid.whole_digits hwritten.valid.getD_places⟩

/-- With 28 places the mantissa of this dimension would have 97 bits, so there are 27. -/
theorem tokens_number_of_dimension :
    ∃ t, ofConfig? "-9.9999999999999999999999999999em".toList {} = .ok t ∧
      (t.tokens.map fun token =>
        (token.number? Decimal.library).map fun d => (d.mantissa, d.scale)) =
          [some (-9999999999999999999999999999, 27)] ∧
      ∀ token ∈ t.tokens, token.kind = .dimension →
        ∃ d, token.number? Decimal.library = some d ∧
          ∃ negative n trail, token.Written negative n trail ∧
            Decimal.library.ReadFrom negative n.whole (n.places.getD []) d := by
  refine ⟨_, rfl, rfl, fun token hmem hk => ?_⟩
  obtain ⟨d, hd, ⟨negative, n, trail, hwritten⟩, hread⟩ :=
    tokens_number Decimal.makesParts_library "-9.9999999999999999999999999999em".toList {} rfl token
      hmem (Or.inr (Or.inr hk))
  exact ⟨d, hd, negative, n, trail, hwritten, (hread negative n trail hwritten).1⟩

end Tokenizer

end StyleLex
