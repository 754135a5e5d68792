import StyleLex.Proofs.Run
import StyleLex.Proofs.Truncation

/-!
# Proofs/MaximalMunch — every token is the longest one, and its text says all about it

A list of characters *stands alone* if it is a single token of its own (`StandsAlone`).  The lexer,
as long as it does not split comments, cuts a text into the longest pieces that stand alone
(`Greedy`), and a piece has the same kind and payload wherever it is cut out.

Everything comes from `Lexeme.leading_take`: cutting a text behind its first token leaves that token
as it is.  Cut right behind it, the token stands alone (`Whole.tokenize_text`).  Cut further behind
it, what is left begins with the same, shorter token, so it does not stand alone
(`Whole.not_standsAlone_of_lt`).
-/

namespace StyleLex

/-! ## Segmentations -/

/-- **The greedy segmentation of a text**: each piece is the longest one in `L` that the rest of the
text begins with. -/
inductive Greedy (L : List Char → Prop) :
    (text : List Char) → (pieces : List (List Char)) → Prop where
  | nil : Greedy L [] []
  | cons {w rest : List Char} {ws : List (List Char)} (ne : w ≠ []) (mem : L w)
      (longest : ∀ v, v <+: w ++ rest → w.length < v.length → ¬L v) (tail : Greedy L rest ws) :
      Greedy L (w ++ rest) (w :: ws)

/-- **There is at most one greedy segmentation.** -/
theorem Greedy.unique {L : List Char → Prop} {text : List Char} {ws vs : List (List Char)}
    (hw : Greedy L text ws) (hv : Greedy L text vs) : ws = vs := by
  induction hw generalizing vs with
  | nil =>
    generalize htext : ([] : List Char) = text at hv
    cases hv with
    | nil => rfl
    | cons ne => exact absurd (List.append_eq_nil_iff.mp htext.symm).1 ne
  | @cons w rest ws ne mem longest _ ih =>
    generalize htext : w ++ rest = text at hv
    cases hv with
    | nil => exact absurd (List.append_eq_nil_iff.mp htext).1 ne
    | @cons v rest' vs _ mem' longest' tail' =>
      have hvw : ¬w.length < v.length := fun hlt =>
        longest v (htext ▸ List.prefix_append v rest') hlt mem'
      have hwv : ¬v.length < w.length := fun hlt =>
        longest' w (htext ▸ List.prefix_append w rest) hlt mem
      obtain ⟨rfl, rfl⟩ := List.append_inj htext (by omega)
      rw [ih tail']

/-! ## Lists of characters that stand alone -/

/-- **The characters are a single token.** -/
def StandsAlone (w : List Char) : Prop := ∃ token, tokenize (String.ofList w) = [token]

open Tokenizer Lexeme

theorem tokenize_ofList (w : List Char) : tokenize (String.ofList w) = (ofText w).tokens := by
  rw [tokenize, String.toList_ofList]

/-- A text whose first token takes up all of it has no other token. -/
theorem tokenize_of_leading {c : Char} {cs : List Char}
    (h : (leading {} c cs).length = cs.length + 1) :
    tokenize (String.ofList (c :: cs)) = [(ofText (c :: cs)).token (leading {} c cs)] := by
  have hlx : (ofText (c :: cs)).lexeme? = some (leading {} c cs) := lexeme?_of_cons rfl rfl
  have hnil : ((ofText (c :: cs)).after (leading {} c cs)).tokens = [] := by
    rw [tokens_eq_nil_iff, ahead_after, h]
    exact List.drop_of_length_le (Nat.le_refl _)
  rw [tokenize_ofList, tokens_of_some hlx, hnil]

/-- **What stands alone** is what the first token takes up all of. -/
theorem standsAlone_iff {w : List Char} :
    StandsAlone w ↔ ∃ c cs, w = c :: cs ∧ (leading {} c cs).length = cs.length + 1 := by
  constructor
  · rintro ⟨token, htoken⟩
    rw [tokenize_ofList] at htoken
    cases w with
    | nil => cases htoken
    | cons c cs =>
      have hlx : (ofText (c :: cs)).lexeme? = some (leading {} c cs) := lexeme?_of_cons rfl rfl
      rw [tokens_of_some hlx] at htoken
      have hnil := tokens_eq_nil_iff.mp (List.cons.inj htoken).2
      rw [ahead_after] at hnil
      have hge : cs.length + 1 ≤ (leading {} c cs).length := List.drop_eq_nil_iff.mp hnil
      exact ⟨c, cs, rfl, Nat.le_antisymm (leading_length {} c cs).2 hge⟩
  · rintro ⟨c, cs, rfl, h⟩
    exact ⟨_, tokenize_of_leading h⟩

/-- What is left of a text that is cut behind its first token, and the same first token. -/
theorem leading_of_take {c : Char} {cs : List Char} {n : Nat}
    (h : (leading {} c cs).length ≤ n) :
    ∃ ds, (c :: cs).take n = c :: ds ∧ leading {} c ds = leading {} c cs := by
  have hpos := (leading_length {} c cs).1
  obtain ⟨m, rfl⟩ : ∃ m, n = m + 1 := ⟨n - 1, by omega⟩
  exact ⟨cs.take m, List.take_succ_cons, leading_take rfl h⟩

/-- **Nothing longer stands alone**, since it begins with the same token. -/
theorem not_standsAlone_of_lt {v : List Char} {c : Char} {cs : List Char} (hv : v <+: c :: cs)
    (hlt : (leading {} c cs).length < v.length) : ¬StandsAlone v := by
  intro halone
  obtain ⟨ds, hds, heq⟩ := leading_of_take (Nat.le_of_lt hlt)
  rw [← List.prefix_iff_eq_take.mp hv] at hds
  obtain ⟨d, es, hes, hlen⟩ := standsAlone_iff.mp halone
  obtain ⟨rfl, rfl⟩ := List.cons.inj (hds.symm.trans hes)
  rw [hds, List.length_cons, ← hlen, heq] at hlt
  exact Nat.lt_irrefl _ hlt

/-! ## The tokens of a text -/

/-- **A token is the same alone**: its text gives its kind and payload. -/
theorem Tokenizer.Whole.tokenize_text {t : Tokenizer Cursor} (ht : t.Whole) {lx : Lexeme}
    (h : t.lexeme? = some lx) :
    ∃ alone, tokenize (t.token lx).text = [alone] ∧ alone.kind = (t.token lx).kind ∧
      alone.text = (t.token lx).text ∧ alone.payload = (t.token lx).payload := by
  have hle := length_le_ahead ht.closesAhead h
  obtain ⟨c, cs, hcs, rfl⟩ := ht.lexeme?_cases h
  rw [ht.options_eq] at hle ⊢
  obtain ⟨ds, hds, heq⟩ := leading_of_take (Nat.le_refl (leading {} c cs).length)
  have hlen : (leading {} c cs).length = ds.length + 1 := by
    have := congrArg List.length hds
    rwa [List.length_take, ← hcs, Nat.min_eq_left hle] at this
  have hahead : (ofText (c :: ds)).source.ahead = c :: ds := rfl
  rw [token_eq hle, hcs, hds]
  refine ⟨_, tokenize_of_leading (heq ▸ hlen), ?_⟩
  rw [heq, token_eq (by rw [hlen, hahead]; exact Nat.le_refl _), hahead]
  refine ⟨rfl, ?_, ?_⟩
  · exact congrArg String.ofList (List.take_of_length_le (Nat.le_of_eq hlen.symm))
  · refine Payload.map_congr fun s hs => ?_
    rw [← hds, Span.cut_take ((rule_leading {} c cs).piece_le hs).2]

/-- **A token is the longest piece that stands alone.** -/
theorem Tokenizer.Whole.not_standsAlone_of_lt {t : Tokenizer Cursor} (ht : t.Whole) {lx : Lexeme}
    (h : t.lexeme? = some lx) {v : List Char} (hv : v <+: t.source.ahead)
    (hlt : (t.token lx).text.toList.length < v.length) : ¬StandsAlone v := by
  have hle := length_le_ahead ht.closesAhead h
  obtain ⟨c, cs, hcs, rfl⟩ := ht.lexeme?_cases h
  rw [ht.options_eq] at hle hlt
  rw [token_eq hle, String.toList_ofList, List.length_take, Nat.min_eq_left hle] at hlt
  rw [hcs] at hv
  exact StyleLex.not_standsAlone_of_lt hv hlt

/-- **The tokens that are left** segment what is ahead greedily. -/
theorem Tokenizer.Whole.greedy {t : Tokenizer Cursor} (ht : t.Whole) :
    Greedy StandsAlone t.source.ahead (t.tokens.map fun token => token.text.toList) := by
  induction t using tokens_induction with
  | done t h =>
    rw [tokens_of_none h, lexeme?_eq_none_iff.mp h]
    exact .nil
  | step t lx h ih =>
    have hle := length_le_ahead ht.closesAhead h
    have htext : (t.token lx).text.toList = t.source.ahead.take lx.length := by
      rw [token_eq hle, String.toList_ofList]
    have hahead : t.source.ahead = (t.token lx).text.toList ++ (t.after lx).source.ahead := by
      rw [htext, ahead_after, List.take_append_drop]
    obtain ⟨alone, halone, -⟩ := ht.tokenize_text h
    have hne : (t.token lx).text.toList ≠ [] := fun hnil => by
      have hpos := Lexeme.length_pos_of_next? h
      rw [htext] at hnil
      have := congrArg List.length hnil
      rw [List.length_take, Nat.min_eq_left hle, List.length_nil] at this
      omega
    rw [tokens_of_some h, hahead]
    refine .cons hne ⟨alone, by rwa [String.ofList_toList]⟩ (fun v hv hlt => ?_) (ih (ht.after h))
    rw [← hahead] at hv
    exact ht.not_standsAlone_of_lt h hv hlt

/-- A token of a text has the kind and payload that its text has alone. -/
theorem tokenize_text_of_mem {text : String} {token : Token} (h : token ∈ tokenize text) :
    ∃ alone, tokenize token.text = [alone] ∧ alone.kind = token.kind ∧
      alone.payload = token.payload := by
  obtain ⟨pre, post, hsplit⟩ := List.append_of_mem h
  obtain ⟨u, lx, hrun, hlx, rfl, -⟩ := exists_run_of_tokens_eq_cons hsplit
  obtain ⟨alone, halone, hkind, -, hpayload⟩ :=
    ((whole_ofText text.toList).run hrun).tokenize_text hlx
  exact ⟨alone, halone, hkind, hpayload⟩

/-- **Maximal munch.**  Every token of a text, standing at a position `p`, is a token of the same
kind and payload alone, and nothing longer that begins at `p` is a single token.  So the texts of
the tokens are the greedy segmentation of the text into single tokens, and the text of a token
determines its kind and payload. -/
theorem maximal_munch (text : String) :
    (∀ pre token post, tokenize text = pre ++ token :: post →
      ∃ p, p = (pre.flatMap fun before => before.text.toList).length ∧
        token.start = shiftPosition 0 p ∧
        (∃ alone, tokenize token.text = [alone] ∧ alone.kind = token.kind ∧
          alone.text = token.text ∧ alone.payload = token.payload) ∧
        ∀ v, v <+: text.toList.drop p → token.text.toList.length < v.length → ¬StandsAlone v) ∧
    (∀ pieces, Greedy StandsAlone text.toList pieces ↔
      pieces = (tokenize text).map fun token => token.text.toList) ∧
    ∀ other, ∀ token ∈ tokenize text, ∀ token' ∈ tokenize other, token.text = token'.text →
      token.kind = token'.kind ∧ token.payload = token'.payload := by
  have hwhole := whole_ofText text.toList
  refine ⟨?_, ?_, ?_⟩
  · intro pre token post h
    obtain ⟨u, lx, hrun, hlx, rfl, -⟩ := exists_run_of_tokens_eq_cons h
    have hu := hwhole.run hrun
    have hpos := hrun.position_eq hwhole.closesAhead
    have hahead := hrun.ahead_eq hwhole.closesAhead
    refine ⟨_, rfl, ?_, hu.tokenize_text hlx, fun v hv hlt => ?_⟩
    · rw [token_eq (length_le_ahead hu.closesAhead hlx), hpos, shift, hrun.config_eq]
      exact congrArg (shiftPosition 0) (Nat.zero_add _)
    · rw [show text.toList = _ from hahead, List.drop_left] at hv
      exact hu.not_standsAlone_of_lt hlx hv hlt
  · intro pieces
    exact ⟨fun h => h.unique hwhole.greedy, fun h => h ▸ hwhole.greedy⟩
  · -- both are what the same text gives on its own
    intro other token htoken token' htoken' htext
    obtain ⟨alone, halone, hkind, hpayload⟩ := tokenize_text_of_mem htoken
    obtain ⟨alone', halone', hkind', hpayload'⟩ := tokenize_text_of_mem htoken'
    rw [htext, halone'] at halone
    obtain rfl := (List.cons.inj halone).1
    exact ⟨hkind.symm.trans hkind', hpayload.symm.trans hpayload'⟩

end StyleLex
