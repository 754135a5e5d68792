import StyleLex.Proofs.Grammar

/-!
# Proofs/Widening — what a carriage return before every line feed does to a token

`crlf cs` is the text `cs` with a carriage return before every line feed, and `width cs n` tells how
many characters of it the first `n` characters of `cs` become.  A scanner reaches as far in the one
text as in the other: what it counts in `crlf cs` is the width of what it counts in `cs`
(`run_crlf`, `name_crlf`, …).  So the token that the one text begins with is the token that the
other begins with, its length and its places widened (`leading_crlf`, `leading_lf`).

One scanner needs a condition.  In a string a backslash goes with any character, so the two would
part after a backslash before a line feed (`NoEscapedFeed`).
-/

namespace StyleLex

open Chars

/-! ## Texts and places in them -/

/-- **The text with a carriage return before every line feed.** -/
def crlf (cs : List Char) : List Char := cs.flatMap fun c => if c = '\n' then ['\r', '\n'] else [c]

@[simp] theorem crlf_nil : crlf [] = [] := rfl

@[simp] theorem crlf_lf (cs : List Char) : crlf ('\n' :: cs) = '\r' :: '\n' :: crlf cs := rfl

/-- Another character than a line feed stays alone. -/
theorem crlf_cons {c : Char} (hc : c ≠ '\n') (cs : List Char) : crlf (c :: cs) = c :: crlf cs := by
  rw [crlf, List.flatMap_cons, if_neg hc]
  rfl

theorem crlf_append (cs ds : List Char) : crlf (cs ++ ds) = crlf cs ++ crlf ds :=
  List.flatMap_append

/-- A text without line feeds stays as it is. -/
theorem crlf_of_notMem {cs : List Char} (h : '\n' ∉ cs) : crlf cs = cs := by
  induction cs with
  | nil => rfl
  | cons c cs ih =>
    obtain ⟨hc, hcs⟩ := not_or.mp (mt List.mem_cons.mpr h)
    rw [crlf_cons (Ne.symm hc), ih hcs]

/-- A line feed stays in the text. -/
theorem mem_crlf {cs : List Char} (h : '\n' ∈ cs) : '\n' ∈ crlf cs :=
  List.mem_flatMap.mpr ⟨'\n', h, by decide⟩

/-- A line is what the text becomes only if it was the text. -/
theorem crlf_eq_iff {cs line : List Char} (h : '\n' ∉ line) : crlf cs = line ↔ cs = line := by
  constructor
  · rintro rfl
    exact (crlf_of_notMem fun hmem => h (mem_crlf hmem)).symm
  · rintro rfl
    exact crlf_of_notMem h

/-- **The place in `crlf cs` of the place `n` in `cs`.** -/
def width (cs : List Char) (n : Nat) : Nat := (crlf (cs.take n)).length

@[simp] theorem width_zero (cs : List Char) : width cs 0 = 0 := rfl

@[simp] theorem width_lf (cs : List Char) (n : Nat) :
    width ('\n' :: cs) (n + 1) = width cs n + 2 := rfl

/-- Another character than a line feed takes up one place. -/
theorem width_cons {c : Char} (hc : c ≠ '\n') (cs : List Char) (n : Nat) :
    width (c :: cs) (n + 1) = width cs n + 1 := by
  rw [width, List.take_succ_cons, crlf_cons hc]
  rfl

theorem width_one {c : Char} (hc : c ≠ '\n') (cs : List Char) : width (c :: cs) 1 = 1 := by
  rw [width_cons hc, width_zero]

theorem width_one_add {c : Char} (hc : c ≠ '\n') (cs : List Char) (n : Nat) :
    width (c :: cs) (1 + n) = 1 + width cs n := by
  rw [Nat.add_comm, width_cons hc, Nat.add_comm]

/-- **A place behind a place** is as far from it as what is between them has become. -/
theorem width_add (cs : List Char) (m n : Nat) :
    width cs (m + n) = width cs m + width (cs.drop m) n := by
  rw [width, List.take_add, crlf_append, List.length_append]
  rfl

/-- A place behind a text without line feeds. -/
theorem width_append {pre : List Char} (h : '\n' ∉ pre) (cs : List Char) (n : Nat) :
    width (pre ++ cs) (pre.length + n) = pre.length + width cs n := by
  rw [width, List.take_length_add_append, crlf_append, crlf_of_notMem h, List.length_append]
  rfl

/-- The text becomes what its two parts become. -/
theorem crlf_eq_append (cs : List Char) (n : Nat) :
    crlf cs = crlf (cs.take n) ++ crlf (cs.drop n) := by
  rw [← crlf_append, List.take_append_drop]

/-- **Up to the place** stands what the text up to there has become. -/
theorem take_width (cs : List Char) (n : Nat) : (crlf cs).take (width cs n) = crlf (cs.take n) := by
  rw [crlf_eq_append cs n, width, List.take_left]

/-- **From the place on** stands what the text from there on has become. -/
theorem drop_width (cs : List Char) (n : Nat) : (crlf cs).drop (width cs n) = crlf (cs.drop n) := by
  rw [crlf_eq_append cs n, width, List.drop_left]

/-- The end of the text becomes the end. -/
theorem length_crlf (cs : List Char) : (crlf cs).length = width cs cs.length := by
  rw [width, List.take_length]

/-- Widening moves no place forward. -/
theorem le_width : ∀ {cs : List Char} {n : Nat}, n ≤ cs.length → n ≤ width cs n
  | _, 0, _ => Nat.zero_le _
  | [], n + 1, h => absurd h (Nat.not_succ_le_zero n)
  | c :: cs, n + 1, h => by
      have ih := @le_width cs n (Nat.le_of_succ_le_succ h)
      by_cases hc : c = '\n'
      · subst hc
        rw [width_lf]
        omega
      · rw [width_cons hc]
        omega

/-- What is before a place stays before it. -/
theorem width_lt {cs : List Char} {m n : Nat} (hmn : m < n) (hn : n ≤ cs.length) :
    width cs m < width cs n := by
  obtain ⟨k, rfl⟩ := Nat.exists_eq_add_of_lt hmn
  have hle := @le_width (cs.drop m) (k + 1) (by rw [List.length_drop]; omega)
  rw [Nat.add_assoc, width_add]
  omega

/-- A place is before the end if it was. -/
theorem width_lt_length_iff {cs : List Char} {n : Nat} (hn : n ≤ cs.length) :
    width cs n < (crlf cs).length ↔ n < cs.length := by
  rw [length_crlf]
  refine ⟨fun h => Nat.lt_of_le_of_ne hn fun heq => ?_, fun h => width_lt h (Nat.le_refl _)⟩
  rw [heq] at h
  exact Nat.lt_irrefl _ h

/-- Only the beginning becomes the beginning. -/
theorem width_eq_zero_iff {cs : List Char} {n : Nat} (hn : n ≤ cs.length) :
    width cs n = 0 ↔ n = 0 := by
  refine ⟨fun h => ?_, fun h => by rw [h, width_zero]⟩
  have := le_width hn
  omega

/-- A character becomes a character at least. -/
theorem exists_width_eq_succ {cs : List Char} {n : Nat} (h : n + 1 ≤ cs.length) :
    ∃ w, width cs (n + 1) = w + 1 :=
  Nat.exists_eq_succ_of_ne_zero (mt (width_eq_zero_iff h).mp n.succ_ne_zero)

/-- Up to a place in the first line nothing is moved. -/
theorem width_of_take {cs line : List Char} {n : Nat} (h : cs.take n = line)
    (hlen : line.length = n) (hn : '\n' ∉ line) : width cs n = n := by
  rw [width, h, crlf_of_notMem hn, hlen]

/-! ## Looking at the next characters -/

/-- The text begins with a character of a class, if both characters of a line end are in it or
neither is. -/
theorem any_head?_crlf {p : Char → Bool} (hp : p '\r' = p '\n') (cs : List Char) :
    (crlf cs).head?.any p = cs.head?.any p := by
  cases cs with
  | nil => rfl
  | cons c cs =>
    by_cases hc : c = '\n'
    · subst hc
      exact hp
    · rw [crlf_cons hc]
      rfl

/-- The text begins with a character that is in no line end if it did so. -/
theorem head?_crlf {cs : List Char} {c : Char} (hr : c ≠ '\r') (hn : c ≠ '\n') :
    (crlf cs).head? = some c ↔ cs.head? = some c := by
  cases cs with
  | nil => rfl
  | cons d cs =>
    by_cases hd : d = '\n'
    · subst hd
      simp [hr.symm, hn.symm]
    · rw [crlf_cons hd]
      rfl

/-- Both texts begin with the same words of one line. -/
theorem take_crlf_eq_iff {line : List Char} (hr : '\r' ∉ line) (hn : '\n' ∉ line)
    (cs : List Char) : (crlf cs).take line.length = line ↔ cs.take line.length = line := by
  induction line generalizing cs with
  | nil => exact Iff.rfl
  | cons c line ih =>
    obtain ⟨hcr, hr⟩ := not_or.mp (mt List.mem_cons.mpr hr)
    obtain ⟨hcn, hn⟩ := not_or.mp (mt List.mem_cons.mpr hn)
    cases cs with
    | nil => rfl
    | cons d cs =>
      by_cases hd : d = '\n'
      · subst hd
        simp [hcr, hcn]
      · rw [crlf_cons hd, List.length_cons, List.take_succ_cons, List.take_succ_cons,
          List.cons.injEq, List.cons.injEq, ih hr hn]

/-! ## Scanners -/

namespace Extent

section Runs

variable {p : Char → Bool} (hp : p '\r' = p '\n')

include hp

/-- A run becomes the run of the text that it has become. -/
theorem takeWhile_crlf (cs : List Char) : (crlf cs).takeWhile p = crlf (cs.takeWhile p) := by
  induction cs with
  | nil => rfl
  | cons c cs ih =>
    by_cases hc : c = '\n'
    · subst hc
      cases hn : p '\n' with
      | false => simp [hp, hn]
      | true => simp [hp, hn, ih]
    · rw [crlf_cons hc, List.takeWhile_cons, List.takeWhile_cons]
      split
      · rw [crlf_cons hc, ih]
      · rfl

/-- **A run reaches as far**, if its class has both characters of a line end or neither. -/
theorem run_crlf (cs : List Char) : run p (crlf cs) = width cs (run p cs) := by
  rw [width, take_run, ← takeWhile_crlf hp]
  rfl

/-- What follows a run becomes what follows the run that it has become. -/
theorem dropWhile_crlf (cs : List Char) : (crlf cs).dropWhile p = crlf (cs.dropWhile p) := by
  rw [dropWhile_eq_drop_run, run_crlf hp, drop_width, dropWhile_eq_drop_run]

end Runs

theorem whitespace_crlf (cs : List Char) : whitespace (crlf cs) = width cs (whitespace cs) :=
  run_crlf (by decide) cs

theorem letters_crlf (cs : List Char) : letters (crlf cs) = width cs (letters cs) :=
  run_crlf (by decide) cs

theorem line_crlf (cs : List Char) : line (crlf cs) = width cs (line cs) := run_crlf (by decide) cs

theorem bare_crlf (cs : List Char) : bare (crlf cs) = width cs (bare cs) := run_crlf (by decide) cs

/-- A run within the first `k` characters, of which the characters of a line end are none. -/
theorem run_take_crlf {p : Char → Bool} (hr : p '\r' = false) (hn : p '\n' = false) :
    ∀ (k : Nat) (cs : List Char), run p ((crlf cs).take k) = width cs (run p (cs.take k))
  | 0, _ => rfl
  | _ + 1, [] => rfl
  | k + 1, c :: cs => by
      by_cases hc : c = '\n'
      · subst hc
        simp [run, hr, hn]
      · have ih := run_take_crlf hr hn k cs
        rw [crlf_cons hc, List.take_succ_cons, List.take_succ_cons, run, run, List.takeWhile_cons,
          List.takeWhile_cons]
        split
        · rw [List.length_cons, List.length_cons, width_cons hc]
          exact congrArg (· + 1) ih
        · rfl

/-- The digits of a code point stay in their line. -/
theorem hexDigits_crlf (cs : List Char) : hexDigits (crlf cs) = width cs (hexDigits cs) :=
  run_take_crlf (by decide) (by decide) maxHexDigits cs

/-- **An escape reaches as far**: it does not go into the next line. -/
theorem escape_crlf : ∀ cs : List Char, escape (crlf cs) = width cs (escape cs)
  | [] => rfl
  | c :: cs => by
      by_cases hb : c = '\\'
      · subst hb
        rw [crlf_cons (by decide)]
        cases cs with
        | nil => rfl
        | cons d cs =>
          by_cases hd : d = '\n'
          · -- neither the line feed nor the carriage return can be escaped in a name
            subst hd
            rfl
          · have hcode := hexDigits_crlf (d :: cs)
            rw [crlf_cons hd] at hcode ⊢
            rw [escape, escape, hcode]
            split
            · rw [width_one_add (by decide)]
            · split
              · rfl
              · rw [width_cons (by decide), width_one hd]
      · rw [escape_of_ne hb, width_zero]
        by_cases hc : c = '\n'
        · subst hc
          exact escape_of_ne (by decide) _
        · rw [crlf_cons hc, escape_of_ne hb]

/-- An item of a name, be it one that can begin a name or any. -/
theorem item_crlf {f : List Char → Nat} {p : Char → Bool} (hnil : f [] = 0)
    (hcons : ∀ c cs, f (c :: cs) = if p c then 1 else escape (c :: cs)) (hr : p '\r' = false)
    (hn : p '\n' = false) : ∀ cs : List Char, f (crlf cs) = width cs (f cs)
  | [] => by rw [crlf_nil, hnil, width_zero]
  | c :: cs => by
      have hescape := escape_crlf (c :: cs)
      by_cases hc : c = '\n'
      · subst hc
        rw [crlf_lf] at hescape ⊢
        rw [hcons, hcons, hr, hn]
        exact hescape
      · rw [crlf_cons hc] at hescape ⊢
        rw [hcons, hcons, hescape]
        split
        · rw [width_one hc]
        · rfl

/-- An item of a name reaches as far. -/
theorem nameItem_crlf (cs : List Char) : nameItem (crlf cs) = width cs (nameItem cs) :=
  item_crlf rfl (fun _ _ => rfl) (by decide) (by decide) cs

theorem nameStart_crlf (cs : List Char) : nameStart (crlf cs) = width cs (nameStart cs) :=
  item_crlf rfl (fun _ _ => rfl) (by decide) (by decide) cs

/-- The induction takes one item of the name after another. -/
theorem name_crlf (cs : List Char) : name (crlf cs) = width cs (name cs) := by
  induction hk : cs.length using Nat.strongRecOn generalizing cs with
  | ind k ih =>
    have hle := nameItem_le cs
    rw [name_eq (crlf cs), name_eq cs, nameItem_crlf]
    by_cases h0 : nameItem cs = 0
    · rw [h0, width_zero, if_pos rfl, if_pos rfl, width_zero]
    · have hlt : (cs.drop (nameItem cs)).length < k := by
        rw [List.length_drop]
        omega
      rw [if_neg (mt (width_eq_zero_iff hle).mp h0), if_neg h0, drop_width, ih _ hlt _ rfl,
        width_add]

/-- An identifier reaches as far, its first item and the name behind it. -/
theorem identifier_crlf (cs : List Char) : identifier (crlf cs) = width cs (identifier cs) := by
  have hle := nameStart_le cs
  have hstart := nameStart_crlf cs
  rw [identifier, identifier, hstart]
  cases hk : nameStart cs with
  | zero => rfl
  | succ k =>
    rw [hk] at hle
    obtain ⟨w, hw⟩ := exists_width_eq_succ hle
    have hname := name_crlf (cs.drop (k + 1))
    rw [← drop_width, hw] at hname
    rw [hw]
    simp only
    rw [hname, width_add, hw]

/-- Another character than `*` belongs to the inside of a comment. -/
theorem blockComment_of_ne {c : Char} (hc : c ≠ '*') (cs : List Char) :
    blockComment (c :: cs) = blockComment cs + 1 := by
  rw [blockComment, if_neg fun h => hc h.1, Nat.add_comm]

/-- The inside of a block comment reaches as far, over all its lines. -/
theorem blockComment_crlf : ∀ cs : List Char, blockComment (crlf cs) = width cs (blockComment cs)
  | [] => rfl
  | c :: cs => by
      have ih := blockComment_crlf cs
      by_cases hc : c = '\n'
      · subst hc
        rw [crlf_lf, blockComment_of_ne (by decide), blockComment_of_ne (by decide),
          blockComment_of_ne (by decide), ih, width_lf]
      · rw [crlf_cons hc, blockComment, blockComment, ih]
        simp only [head?_crlf (show '/' ≠ '\r' by decide) (by decide)]
        split
        · rfl
        · rw [width_one_add hc]

end Extent

/-! ## Strings -/

/-- **No line feed stands behind a backslash.** -/
def NoEscapedFeed (cs : List Char) : Prop := ¬['\\', '\n'] <:+: cs

/-- What follows in the text has no escaped line feed either. -/
theorem NoEscapedFeed.of_suffix {cs ds : List Char} (h : NoEscapedFeed cs) (hds : ds <:+ cs) :
    NoEscapedFeed ds := fun hin => h (hin.trans hds.isInfix)

theorem NoEscapedFeed.tail {c : Char} {cs : List Char} (h : NoEscapedFeed (c :: cs)) :
    NoEscapedFeed cs := h.of_suffix (List.suffix_cons c cs)

theorem NoEscapedFeed.drop {cs : List Char} (h : NoEscapedFeed cs) (n : Nat) :
    NoEscapedFeed (cs.drop n) := h.of_suffix (List.drop_suffix n cs)

/-- A backslash does not stand before a line feed. -/
theorem NoEscapedFeed.ne {c : Char} {cs : List Char} (h : NoEscapedFeed ('\\' :: c :: cs)) :
    c ≠ '\n' := fun hc => h (hc ▸ (List.prefix_append ['\\', '\n'] cs).isInfix)

namespace Extent

/-- **The inside of a string reaches as far**, if no line feed in it is escaped. -/
theorem quoted_crlf (q : Char) {cs : List Char} (h : NoEscapedFeed cs) :
    quoted q (crlf cs) = width cs (quoted q cs) := by
  fun_induction quoted q cs with
  | case1 => rw [crlf_nil, quoted, width_zero]
  | case2 c cs hc =>
    rw [width_zero]
    by_cases hn : c = '\n'
    · subst hn
      exact quoted_stop (Or.inr (by decide)) _
    · rw [crlf_cons hn, quoted_stop hc]
  | case3 hc => exact quoted_dangling hc
  | case4 d cs hc ih =>
    rw [crlf_cons (by decide), crlf_cons h.ne, quoted_escape hc rfl, ih h.tail.tail,
      Nat.add_comm 2, Nat.add_comm 2, width_cons (by decide), width_cons h.ne]
  | case5 c cs hc hb ih =>
    have hn : c ≠ '\n' := fun hn => hc (Or.inr (hn ▸ by decide))
    rw [crlf_cons hn, quoted_other hc hb, ih h.tail, width_one_add hn]

/-- A string keeps its quote, which is in no line end. -/
theorem quotedClosed_crlf {q : Char} (hq : isQuote q = true) {cs : List Char}
    (h : NoEscapedFeed cs) : quotedClosed q (crlf cs) = width cs (quotedClosed q cs) := by
  have hr : q ≠ '\r' := fun hr => absurd (hr ▸ hq) (by decide)
  have hn : q ≠ '\n' := fun hn => absurd (hn ▸ hq) (by decide)
  simp only [quotedClosed]
  rw [quoted_crlf q h, drop_width]
  simp only [head?_crlf hr hn]
  split
  · next hclose =>
    obtain ⟨ds, hds⟩ := List.head?_eq_some_iff.mp hclose
    rw [width_add, hds, width_one hn]
  · rfl

end Extent

/-! ## Tokens -/

/-- The place in the text with carriage returns. -/
def Span.widen (cs : List Char) (s : Span) : Span := ⟨width cs s.start, width cs s.stop⟩

/-- **The token in the text with carriage returns.**  Its end and its places are moved along. -/
def Lexeme.widen (cs : List Char) (lx : Lexeme) : Lexeme :=
  { lx with
    length := width cs lx.length
    payload := lx.payload.map (Span.widen cs) }

open Extent Grammar

/-- A numeral keeps its digits, and what follows it becomes what it does. -/
theorem Numeral.read_crlf (cs : List Char) :
    read (crlf cs) = ((read cs).1, crlf (read cs).2) := by
  have hdigits : ∀ ds : List Char,
      (crlf ds).takeWhile isDigit = ds.takeWhile isDigit := fun ds => by
    rw [takeWhile_crlf (by decide), crlf_of_notMem]
    exact fun hmem => absurd (List.all_eq_true.mp List.all_takeWhile _ hmem) (by decide)
  have hdrop : ∀ ds : List Char, (crlf ds).dropWhile isDigit = crlf (ds.dropWhile isDigit) :=
    dropWhile_crlf (by decide)
  by_cases hp : (cs.dropWhile isDigit).head? = some '.'
  · obtain ⟨rest, hrest⟩ := List.head?_eq_some_iff.mp hp
    have hrest' : (crlf cs).dropWhile isDigit = '.' :: crlf rest := by
      rw [hdrop, hrest, crlf_cons (by decide)]
    rw [read_point hrest, read_point hrest', hdigits, hdigits, hdrop]
  · have hp' : ((crlf cs).dropWhile isDigit).head? ≠ some '.' := by
      rwa [hdrop, Ne, head?_crlf (by decide) (by decide)]
    rw [read_no_point hp, read_no_point hp', hdigits, hdrop]

/-- A number stands on one line. -/
theorem Numeral.Valid.notMem {n : Numeral} (h : n.Valid) (negative : Bool) :
    '\n' ∉ sign negative ++ n.chars := by
  have hdigits : ∀ ds : List Char, (∀ c ∈ ds, isDigit c = true) → '\n' ∉ ds := fun ds hds hmem =>
    absurd (hds _ hmem) (by decide)
  have hwhole := hdigits _ h.whole_digits
  have hsign : '\n' ∉ sign negative := by cases negative <;> decide
  rw [List.mem_append, not_or, chars]
  refine ⟨hsign, ?_⟩
  cases hp : n.places with
  | none => exact hwhole
  | some places =>
    have hplaces := hdigits _ (h.places_digits places hp)
    simpa [hwhole] using hplaces

namespace Lexeme

/-- **A number is the same number**, with the places of its unit in the new text. -/
theorem numeric_crlf (negative : Bool) {c : Char} (hc : isDigit c = true) (cs : List Char) :
    numeric negative (crlf (c :: cs)) =
      (numeric negative (c :: cs)).widen (sign negative ++ c :: cs) := by
  have hvalid := (@Numeral.valid_read c cs hc).notMem negative
  have hread := Numeral.chars_read (c :: cs)
  simp only [numeric, Numeral.read_crlf]
  generalize Numeral.read (c :: cs) = r at hvalid hread ⊢
  obtain ⟨n, rest⟩ := r
  have hwidth : ∀ k, width (sign negative ++ c :: cs) (negative.toNat + n.chars.length + k) =
      negative.toNat + n.chars.length + width rest k := fun k => by
    rw [← hread, ← List.append_assoc, ← length_sign, ← List.length_append, width_append hvalid]
  have hzero := hwidth 0
  rw [Nat.add_zero, width_zero, Nat.add_zero] at hzero
  simp only [head?_crlf (show '%' ≠ '\r' by decide) (by decide), letters_crlf,
    width_eq_zero_iff (letters_le rest)]
  split
  · next hp =>
    obtain ⟨ds, rfl⟩ := List.head?_eq_some_iff.mp hp
    rw [widen, hwidth, width_one (by decide)]
    rfl
  · split
    · rw [widen, hzero]
      rfl
    · simp only [widen, Payload.map, Span.widen]
      rw [hwidth, hzero]

/-- The value of a resource is found at its place in the new text. -/
theorem resource_crlf {cs : List Char} (h : NoEscapedFeed cs) :
    resource (crlf cs) = ((resource cs).1.widen cs, width cs (resource cs).2) := by
  cases cs with
  | nil => rfl
  | cons c cs =>
    have hbare := bare_crlf (c :: cs)
    by_cases hc : c = '\n'
    · subst hc
      rw [crlf_lf] at hbare ⊢
      rw [resource, resource, if_neg (by decide), if_neg (by decide), hbare]
      rfl
    · rw [crlf_cons hc] at hbare ⊢
      rw [resource, resource]
      split
      · next hq =>
        rw [quoted_crlf c h.tail, quotedClosed_crlf hq h.tail, Span.widen]
        simp only [width_one_add hc, width_one hc]
      · rw [hbare, Span.widen, width_zero]

/-- **A resource is the same resource**, over all its white space. -/
theorem uri_crlf {scheme cs : List Char} (hs : '\n' ∉ scheme) (h : NoEscapedFeed cs) :
    uri scheme.length (crlf cs) = (uri scheme.length cs).widen (scheme ++ '(' :: cs) := by
  have hopen : '\n' ∉ scheme ++ ['('] := by simpa using hs
  have hscheme := width_append hs ('(' :: cs) 0
  have hwidth : ∀ k, width (scheme ++ '(' :: cs) (scheme.length + 1 + k) =
      scheme.length + 1 + width cs k := fun k => by
    have := width_append hopen cs k
    rwa [List.length_append, List.append_assoc] at this
  rw [width_zero, Nat.add_zero] at hscheme
  simp only [uri, whitespace_crlf, drop_width, resource_crlf (h.drop _),
    head?_crlf (show ')' ≠ '\r' by decide) (by decide), widen, Payload.map, Span.widen, Span.shift,
    Nat.add_assoc, width_zero, hscheme] at hwidth ⊢
  rw [hwidth, hwidth, hwidth, width_add, width_add, width_add, width_add, width_add]
  split
  · next hclose =>
    obtain ⟨ds, hds⟩ := List.head?_eq_some_iff.mp hclose
    rw [hds, width_one (by decide)]
  · rfl

/-- A scheme is written in one line. -/
theorem notMem_of_isScheme {cs : List Char} (h : isScheme cs = true) : '\n' ∉ cs := by
  rw [isScheme, Bool.or_eq_true, beq_iff_eq, beq_iff_eq] at h
  rcases h with rfl | rfl <;> decide

/-- What is a scheme stays one, and nothing becomes one. -/
theorem isScheme_crlf (cs : List Char) : isScheme (crlf cs) = isScheme cs := by
  rw [Bool.eq_iff_iff, isScheme, isScheme, Bool.or_eq_true, Bool.or_eq_true, beq_iff_eq,
    beq_iff_eq, beq_iff_eq, beq_iff_eq, crlf_eq_iff (by decide), crlf_eq_iff (by decide)]

/-- What begins with a name is the function, resource or identifier that it was. -/
theorem named_crlf {cs : List Char} (h : NoEscapedFeed cs) :
    named (crlf cs) = (named cs).widen cs := by
  simp only [named, name_crlf, drop_width, take_width, isScheme_crlf,
    head?_crlf (show '(' ≠ '\r' by decide) (by decide)]
  split
  · next hp =>
    obtain ⟨ds, hds⟩ := List.head?_eq_some_iff.mp hp
    split
    · next hs =>
      have hlen : (cs.take (name cs)).length = name cs := by
        rw [List.length_take, Nat.min_eq_left (name_le cs)]
      have hdrop : NoEscapedFeed ds := (hds ▸ h.drop (name cs)).tail
      have huri := uri_crlf (notMem_of_isScheme hs) hdrop
      have hwidth : width cs (name cs) = name cs := by
        rw [width, crlf_of_notMem (notMem_of_isScheme hs), hlen]
      rw [hlen, ← hds, List.take_append_drop] at huri
      rw [hwidth, hds, crlf_cons (by decide), List.tail_cons, List.tail_cons, huri]
    · rw [widen, width_add, hds, width_one (by decide)]
      rfl
  · rfl

/-- The end of a range of code points reaches as far. -/
theorem rangeEnd_crlf (cs : List Char) : rangeEnd (crlf cs) = width cs (rangeEnd cs) := by
  by_cases hd : cs.head? = some '-'
  · obtain ⟨ds, rfl⟩ := List.head?_eq_some_iff.mp hd
    have hle := hexDigits_le ds
    rw [crlf_cons (by decide), rangeEnd, rangeEnd, hexDigits_crlf]
    cases hk : hexDigits ds with
    | zero => rfl
    | succ k =>
      obtain ⟨w, hw⟩ := exists_width_eq_succ (hk ▸ hle)
      rw [hw]
      simp only
      rw [width_one_add (by decide), hw]
  · rw [rangeEnd_of_ne hd, rangeEnd_of_ne (mt (head?_crlf (by decide) (by decide)).mp hd),
      width_zero]

/-- A range of code points is found again, and none where there was none. -/
theorem unicodeRange?_crlf (cs : List Char) :
    unicodeRange? (crlf cs) = (unicodeRange? cs).map (widen cs) := by
  by_cases hu : cs.take 2 = ['u', '+']
  · obtain ⟨ds, rfl⟩ : ∃ ds, cs = 'u' :: '+' :: ds :=
      ⟨cs.drop 2, by rw [← List.take_append_drop 2 cs, hu]; rfl⟩
    have hle := hexDigits_le ds
    rw [crlf_cons (by decide), crlf_cons (by decide), unicodeRange?, unicodeRange?, hexDigits_crlf]
    cases hk : hexDigits ds with
    | zero => rfl
    | succ k =>
      obtain ⟨w, hw⟩ := exists_width_eq_succ (hk ▸ hle)
      have hwidth : width ('u' :: '+' :: ds) (2 + (k + 1) + rangeEnd (ds.drop (k + 1))) =
          2 + (w + 1) + rangeEnd ((crlf ds).drop (w + 1)) := by
        have hpre := width_append (show '\n' ∉ ['u', '+'] by decide) ds
          (k + 1 + rangeEnd (ds.drop (k + 1)))
        rw [width_add ds, ← rangeEnd_crlf, ← drop_width, hw] at hpre
        rw [Nat.add_assoc 2, Nat.add_assoc 2]
        exact hpre
      simp only [hw, Option.map_some, widen, hwidth, Payload.map]
  · have hrange : (crlf cs).take 2 = ['u', '+'] ↔ cs.take 2 = ['u', '+'] :=
      @take_crlf_eq_iff ['u', '+'] (by decide) (by decide) cs
    rw [unicodeRange?_of_ne hu, unicodeRange?_of_ne (mt hrange.mp hu), Option.map_none]

/-- What begins with a character of a name is what it was. -/
theorem word_crlf {cs : List Char} (h : NoEscapedFeed cs) :
    word (crlf cs) = (word cs).widen cs := by
  rw [word, word, unicodeRange?_crlf, named_crlf h]
  cases unicodeRange? cs <;> rfl

/-- **What is counted behind a mark** is wider by the line feeds that it gets. -/
theorem counted?_width {mark : Char} (hmark : mark ≠ '\n') {cs : List Char} {n : Nat}
    (hn : n ≤ cs.length) (kind : Kind) (payload : Payload Span) :
    counted? kind (width cs n) (payload.map (Span.widen (mark :: cs))) =
      (counted? kind n payload).map (widen (mark :: cs)) := by
  cases n with
  | zero => rfl
  | succ n =>
    obtain ⟨w, hw⟩ := exists_width_eq_succ hn
    have hwidth : width (mark :: cs) (1 + (n + 1)) = 1 + (w + 1) := by rw [width_one_add hmark, hw]
    rw [hw]
    simp only [counted?, Option.map_some, widen, hwidth]

/-- An identifier behind a mark. -/
theorem counted?_identifier_crlf {mark : Char} (hmark : mark ≠ '\n') (kind : Kind)
    (cs : List Char) :
    counted? kind (identifier (crlf cs)) =
      (counted? kind (identifier cs)).map (widen (mark :: cs)) := by
  rw [identifier_crlf]
  exact counted?_width hmark (identifier_le cs) kind .none

/-- A name behind a mark. -/
theorem counted?_name_crlf {mark : Char} (hmark : mark ≠ '\n') (kind : Kind) (cs : List Char) :
    counted? kind (name (crlf cs)) = (counted? kind (name cs)).map (widen (mark :: cs)) := by
  rw [name_crlf]
  exact counted?_width hmark (name_le cs) kind .none

/-- Behind the name of a variable in braces stands its brace, or nothing. -/
theorem width_run_add_brace (cs : List Char) :
    width cs (run (· != '}') cs + if (cs.drop (run (· != '}') cs)).isEmpty then 0 else 1) =
      width cs (run (· != '}') cs) +
        if (cs.drop (run (· != '}') cs)).isEmpty then 0 else 1 := by
  have hhead := List.head?_dropWhile_not (· != '}') cs
  rw [dropWhile_eq_drop_run] at hhead
  cases hdrop : cs.drop (run (· != '}') cs) with
  | nil => rfl
  | cons c ds =>
    rw [hdrop] at hhead
    obtain rfl : c = '}' := by simpa using hhead
    rw [width_add, hdrop]
    rfl

/-- A variable is found again, also if there are line feeds in its braces. -/
theorem variableName?_crlf (cs : List Char) :
    variableName? (crlf cs) = (variableName? cs).map (widen ('$' :: cs)) := by
  by_cases hb : cs.head? = some '{'
  · obtain ⟨ds, rfl⟩ := List.head?_eq_some_iff.mp hb
    have hwidth : ∀ k, width ('$' :: '{' :: ds) (2 + k) = 2 + width ds k :=
      width_append (show '\n' ∉ ['$', '{'] by decide) ds
    have hempty : ∀ es : List Char, (crlf es).isEmpty = es.isEmpty := fun es => by
      rw [Bool.eq_iff_iff, List.isEmpty_iff, List.isEmpty_iff, crlf_eq_iff List.not_mem_nil]
    have hclose := width_run_add_brace ds
    rw [crlf_cons (by decide), variableName?, variableName?, run_crlf (by decide)]
    simp only [drop_width, hempty, Option.map_some, widen, Payload.map, Span.widen, Nat.add_assoc,
      hwidth, hclose]
    rfl
  · rw [variableName?_of_ne hb, variableName?_of_ne (mt (head?_crlf (by decide) (by decide)).mp hb)]
    have h := @counted?_width '$' (by decide) cs _ (letters_le cs) .variableName
      (.text ⟨1, 1 + letters cs⟩)
    rw [Payload.map, Span.widen, width_one (by decide), width_one_add (by decide)] at h
    rw [letters_crlf, h]

/-- What begins with a `-` is the marker, number or identifier that it was. -/
theorem minus?_crlf (cs : List Char) :
    minus? (crlf cs) = (minus? cs).map (widen ('-' :: cs)) := by
  have harrow : (crlf cs).take 2 = ['-', '>'] ↔ cs.take 2 = ['-', '>'] :=
    @take_crlf_eq_iff ['-', '>'] (by decide) (by decide) cs
  simp only [minus?, any_head?_crlf (show isDigit '\r' = isDigit '\n' by decide), harrow]
  split
  · next hcs =>
    have hlen : width ('-' :: cs) 3 = 3 := by
      rw [width_cons (by decide)]
      exact congrArg (· + 1) (width_of_take hcs rfl (by decide))
    simp only [Option.map_some, widen, hlen, Payload.map]
  · split
    · next hd =>
      cases cs with
      | nil => cases hd
      | cons c cs => exact congrArg some (numeric_crlf true hd cs)
    · exact counted?_name_crlf (by decide) .identifier cs

theorem cdataOpen?_crlf (cs : List Char) :
    cdataOpen? (crlf cs) = (cdataOpen? cs).map (widen ('<' :: cs)) := by
  have hopen : (crlf cs).take 3 = ['!', '-', '-'] ↔ cs.take 3 = ['!', '-', '-'] :=
    @take_crlf_eq_iff ['!', '-', '-'] (by decide) (by decide) cs
  simp only [cdataOpen?, hopen]
  split
  · next hcs =>
    have hlen : width ('<' :: cs) 4 = 4 := by
      rw [width_cons (by decide)]
      exact congrArg (· + 1) (width_of_take hcs rfl (by decide))
    simp only [Option.map_some, widen, hlen, Payload.map]
  · rfl

/-- A line comment ends before the line end, in whichever way that is written. -/
theorem lineComment_crlf (cs : List Char) :
    lineComment (crlf cs) = (lineComment cs).widen ('/' :: '/' :: cs) := by
  have hwidth : ∀ k, width ('/' :: '/' :: cs) (2 + k) = 2 + width cs k :=
    width_append (show '\n' ∉ ['/', '/'] by decide) cs
  simp only [lineComment, widen, Payload.map, Span.widen, line_crlf, hwidth]
  rfl

theorem blockComment_crlf (o : Options) (cs : List Char) :
    blockComment o (crlf cs) = (blockComment o cs).widen ('/' :: '*' :: cs) := by
  have hwidth : ∀ k, width ('/' :: '*' :: cs) (2 + k) = 2 + width cs k :=
    width_append (show '\n' ∉ ['/', '*'] by decide) cs
  have hlt := width_lt_length_iff (blockComment_le cs)
  simp only [blockComment, Extent.blockComment_crlf, hlt]
  split
  · simp only [widen, Payload.map, Span.widen, hwidth]
    rfl
  · have hclose : width cs (Extent.blockComment cs +
        if Extent.blockComment cs < cs.length then 2 else 0) =
        width cs (Extent.blockComment cs) +
          if Extent.blockComment cs < cs.length then 2 else 0 := by
      split
      · next hclosed =>
        obtain ⟨ds, hds⟩ := drop_blockComment hclosed
        rw [width_add, hds]
        rfl
      · rfl
    simp only [widen, Payload.map, Span.widen, Nat.add_assoc, hwidth, hclose]
    rfl

/-- A comment is found again, with its value at its place in the new text. -/
theorem comment?_crlf (o : Options) (cs : List Char) :
    comment? o (crlf cs) = (comment? o cs).map (widen ('/' :: cs)) := by
  by_cases hl : cs.head? = some '/'
  · obtain ⟨ds, rfl⟩ := List.head?_eq_some_iff.mp hl
    rw [crlf_cons (by decide), comment?, comment?, lineComment_crlf]
    rfl
  by_cases hb : cs.head? = some '*'
  · obtain ⟨ds, rfl⟩ := List.head?_eq_some_iff.mp hb
    rw [crlf_cons (by decide), comment?, comment?, blockComment_crlf]
    rfl
  · rw [comment?_of_ne hl hb, comment?_of_ne (mt (head?_crlf (by decide) (by decide)).mp hl)
      (mt (head?_crlf (by decide) (by decide)).mp hb)]
    rfl

/-- An operator of two characters has no line end between them. -/
theorem matchOperator_crlf {c : Char} (hc : c ≠ '\n') (cs : List Char) :
    (if (crlf cs).head? = some '=' then some (operator 2) else none) =
      (if cs.head? = some '=' then some (operator 2) else none).map (widen (c :: cs)) := by
  simp only [head?_crlf (show '=' ≠ '\r' by decide) (by decide)]
  split
  · next hd =>
    obtain ⟨ds, rfl⟩ := List.head?_eq_some_iff.mp hd
    rw [Option.map_some, widen, operator, width_cons hc, width_cons (by decide)]
    rfl
  · rfl

/-! ## The next token -/

/-- **What a mark begins** is what it was, widened. -/
theorem marked?_crlf (o : Options) (c : Char) (cs : List Char) :
    marked? o c (crlf cs) = (marked? o c cs).map (widen (c :: cs)) := by
  unfold marked?
  split
  · exact comment?_crlf o cs
  · exact counted?_identifier_crlf (by decide) .atIdentifier cs
  · exact counted?_name_crlf (by decide) .hashName cs
  · exact variableName?_crlf cs
  · exact minus?_crlf cs
  · exact cdataOpen?_crlf cs
  · exact matchOperator_crlf (by decide) cs
  · exact matchOperator_crlf (by decide) cs
  · rfl

/-- White space is as wide as its line feeds have become. -/
theorem widen_whitespace {c : Char} (hc : c ≠ '\n') (cs : List Char) :
    ({ kind := .whitespace, length := 1 + whitespace cs, release := .consuming } : Lexeme).widen
        (c :: cs) =
      { kind := .whitespace, length := 1 + whitespace (crlf cs), release := .consuming } := by
  rw [widen, width_one_add hc, whitespace_crlf]
  rfl

theorem quoted_crlf {q : Char} (hq : isQuote q = true) {cs : List Char} (h : NoEscapedFeed cs) :
    quoted q (crlf cs) = (quoted q cs).widen (q :: cs) := by
  have hn : q ≠ '\n' := fun hn => absurd (hn ▸ hq) (by decide)
  simp only [quoted, widen, Payload.map, Span.widen, Extent.quoted_crlf q h,
    quotedClosed_crlf hq h, width_one_add hn, width_one hn]

/-- **What is found at all** is what it was, widened. -/
theorem attempt?_crlf (o : Options) {c : Char} (hc : c ≠ '\n') {cs : List Char}
    (h : NoEscapedFeed (c :: cs)) :
    attempt? o c (crlf cs) = (attempt? o c cs).map (widen (c :: cs)) := by
  have hcons := crlf_cons hc cs
  unfold attempt?
  split
  · exact congrArg some (widen_whitespace hc cs).symm
  split
  · next hd => rw [← hcons]; exact congrArg some (numeric_crlf false hd cs)
  split
  · rw [Option.map_some, widen, delimiter, width_one hc]
    rfl
  split
  · rw [← hcons]; exact congrArg some (word_crlf h)
  split
  · next hq => exact congrArg some (quoted_crlf hq h.tail)
  · exact marked?_crlf o c cs

/-- **Both texts begin with the same token**, which is widened. -/
theorem leading_crlf (o : Options) {c : Char} (hc : c ≠ '\n') {cs : List Char}
    (h : NoEscapedFeed (c :: cs)) :
    leading o c (crlf cs) = (leading o c cs).widen (c :: cs) := by
  rw [leading, leading, attempt?_crlf o hc h]
  cases attempt? o c cs with
  | none =>
    change operator 1 = (operator 1).widen (c :: cs)
    rw [widen, operator, width_one hc]
    rfl
  | some lx => rfl

/-- A line feed begins white space, and so does the carriage return before it. -/
theorem leading_lf (o : Options) (cs : List Char) :
    leading o '\r' ('\n' :: crlf cs) = (leading o '\n' cs).widen ('\n' :: cs) := by
  have hspace : whitespace ('\n' :: crlf cs) = whitespace (crlf cs) + 1 := rfl
  have hlen : width ('\n' :: cs) (1 + whitespace cs) = 1 + whitespace ('\n' :: crlf cs) := by
    rw [Nat.add_comm, width_lf, hspace, whitespace_crlf]
    omega
  change ({ kind := .whitespace, length := _, release := .consuming } : Lexeme) = _
  rw [← hlen]
  rfl

end Lexeme

end StyleLex
