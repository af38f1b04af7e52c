import ApiLint.Proofs.Digits
import ApiLint.Proofs.Json.Numerals
import ApiLint.Query.Reader

/-!
# Tokens of queries

What the readers of single tokens make of a token that was written out: a text between quotes, with a backslash in front
of every quote and backslash (`Reader.reads_quoted`), a whole number (`Reader.reads_integer`, `Reader.reads_number`), and
a word or a symbol.  Blanks in front of a token are skipped, and a token that goes on as long as its characters fit ends
at what does not fit.
-/

namespace ApiLint

open Json.Grammar (Stops span_iff)

/-! ### Blanks -/

theorem skipBlanks_append {gap : List Char} (h : ∀ c ∈ gap, isBlank c = true) (cs : List Char) :
    skipBlanks (gap ++ cs) = skipBlanks cs :=
  List.dropWhile_append_of_pos h

theorem skipBlanks_cons {c : Char} (h : isBlank c = false) (cs : List Char) : skipBlanks (c :: cs) = c :: cs :=
  List.dropWhile_cons_of_neg (by rw [h]; exact Bool.false_ne_true)

theorem skipBlanks_skipBlanks (cs : List Char) : skipBlanks (skipBlanks cs) = skipBlanks cs := by
  refine List.dropWhile_eq_self_iff.mpr fun hlength => ?_
  exact List.dropWhile_get_zero_not isBlank cs hlength

/-- The ranges of blanks and those of letters and numbers are apart. -/
theorem blankRanges_apart : (blankRanges.all fun r => alphanumericRanges.toList.all fun a =>
    decide (a.2 < r.1) || decide (r.2 < a.1)) = true := by
  decide +kernel

/-- A blank is neither a letter nor a number. -/
theorem isAlphanumeric_of_isBlank {c : Char} (h : isBlank c = true) : isAlphanumeric c = false := by
  have hascii : ∀ n < 128, isBlank (Char.ofNat n) = true → (Char.ofNat n).isAlphanum = false := by decide +kernel
  rw [isAlphanumeric]
  split
  · next hcode =>
    have hc := hascii c.toNat hcode
    rw [Char.ofNat_toNat] at hc
    exact hc h
  · obtain ⟨r, hr, hc⟩ := List.any_eq_true.mp h
    rw [Bool.eq_false_iff, ← Array.any_toList]
    intro hany
    obtain ⟨a, ha, hc'⟩ := List.any_eq_true.mp hany
    have hapart := List.all_eq_true.mp (List.all_eq_true.mp blankRanges_apart r hr) a ha
    simp only [Bool.and_eq_true, Bool.or_eq_true, decide_eq_true_eq] at hc hc' hapart
    omega

/-- What is a letter or a number is not skipped. -/
theorem isBlank_of_isAlphanum {c : Char} (h : c.isAlphanum = true) : isBlank c = false := by
  rw [Bool.eq_false_iff]
  intro hc
  have hword := isAlphanumeric_of_isAlphanum h
  rw [isAlphanumeric_of_isBlank hc] at hword
  cases hword

namespace Query.Reader

theorem isBlank_of_startsNumber {c : Char} (h : startsNumber c = true) : isBlank c = false := by
  rw [startsNumber, Bool.or_eq_true, decide_eq_true_eq] at h
  rcases h with rfl | h
  · decide
  · exact isBlank_of_isAlphanum (by rw [Char.isAlphanum, h, Bool.or_true])

theorem not_isQuote_of_startsNumber {c : Char} (h : startsNumber c = true) : ¬ isQuote c = true := by
  rw [isQuote, Bool.or_eq_true, decide_eq_true_eq, decide_eq_true_eq]
  rintro (rfl | rfl) <;> exact absurd h (by decide)

theorem isBlank_of_isQuote {c : Char} (h : isQuote c = true) : isBlank c = false := by
  rw [isQuote, Bool.or_eq_true, decide_eq_true_eq, decide_eq_true_eq] at h
  rcases h with rfl | rfl <;> decide

/-- The reader comes to `a`, and `rest` is left. -/
def Reads {α : Type} {P : List Char → Prop} (r : Except Fault (α × { rest : List Char // P rest })) (a : α)
    (rest : List Char) : Prop :=
  ∃ h : P rest, r = .ok (a, ⟨rest, h⟩)

theorem Reads.map {α β : Type} {P : List Char → Prop} {r : Except Fault (α × { rest : List Char // P rest })} {a : α}
    {rest : List Char} (h : Reads r a rest) (f : α → β) : Reads (r.map fun x => (f x.1, x.2)) (f a) rest := by
  obtain ⟨hrest, rfl⟩ := h
  exact ⟨hrest, rfl⟩

/-! ### Symbols and words -/

theorem reads_expect {t : Char} {cs rest : List Char} (h : cs = t :: rest) : Reads (expect t cs) () rest := by
  subst h
  exact ⟨length_lt_cons t rest, by rw [expect, if_pos rfl]⟩

theorem reads_expectNext {t : Char} {cs rest : List Char} (h : skipBlanks cs = t :: rest) :
    Reads (expectNext t cs) () rest := by
  obtain ⟨hrest, heq⟩ := reads_expect h
  exact ⟨Nat.lt_of_lt_of_le hrest (length_skipBlanks_le cs), by rw [expectNext, heq]⟩

theorem after?_append (w rest : List Char) : after? w (w ++ rest) = some rest := by
  rw [after?, if_pos (List.prefix_append w rest), List.drop_left]

theorem after?_eq_none {c : Char} {w cs : List Char} (h : cs.head? ≠ some c) : after? (c :: w) cs = none := by
  rw [after?, if_neg]
  rintro ⟨rest, rfl⟩
  exact h rfl

theorem afterWord?_append {w rest : List Char} (h : Stops (fun c => isAlphanumeric c || c = '_') rest) :
    afterWord? w (w ++ rest) = some rest := by
  rw [afterWord?, after?_append, Option.filter_some]
  cases rest with
  | nil => rfl
  | cons c rest => simp [h c rfl]

theorem afterWord?_eq_none {c : Char} {w cs : List Char} (h : cs.head? ≠ some c) : afterWord? (c :: w) cs = none := by
  rw [afterWord?, after?_eq_none h, Option.filter_none]

theorem afterWord?_append_of_ne {u w : List Char} (hu : u ≠ []) (hw : w ≠ []) (h : u.head? ≠ w.head?)
    (rest : List Char) : afterWord? u (w ++ rest) = none := by
  obtain ⟨c, u, rfl⟩ := List.exists_cons_of_ne_nil hu
  refine afterWord?_eq_none fun hhead => h ?_
  rw [List.head?_append_of_ne_nil _ hw] at hhead
  exact hhead.symm

/-- A run of characters of a kind is read up to what is of another kind. -/
theorem reads_run {p : Char → Bool} {c : Char} (hc : p c = true) {cs rest : List Char} (hcs : ∀ d ∈ cs, p d = true)
    (hrest : Stops p rest) : Reads (run p (c :: cs ++ rest)) (String.ofList (c :: cs)) rest := by
  obtain ⟨htake, hdrop⟩ := span_iff.mpr ⟨rfl, hcs, hrest⟩
  have hlength : rest.length < (c :: cs ++ rest).length := by
    rw [List.length_append, List.length_cons]
    omega
  refine ⟨hlength, ?_⟩
  show run p (c :: (cs ++ rest)) = _
  rw [run, if_pos hc, htake]
  simp only [hdrop]

/-! ### Texts between quotes -/

def escape (quote : Char) : List Char → List Char
  | [] => []
  | c :: cs => if c = '\\' || c = quote then '\\' :: c :: escape quote cs else c :: escape quote cs

def quotedText (quote : Char) (s : String) : List Char :=
  quote :: (escape quote s.toList ++ [quote])

theorem ne_backslash_of_isQuote {quote : Char} (h : isQuote quote = true) : quote ≠ '\\' := by
  rintro rfl
  exact absurd h (by decide)

/-- What is escaped stands for itself. -/
theorem unescape_of_escaped {quote c : Char} (h : isQuote quote = true) (hc : c = '\\' ∨ c = quote) :
    unescape c = c := by
  rw [isQuote, Bool.or_eq_true, decide_eq_true_eq, decide_eq_true_eq] at h
  rcases hc with rfl | rfl
  · rfl
  · rcases h with rfl | rfl <;> rfl

theorem quotedBody_escape {quote : Char} (h : isQuote quote = true) (cs rest : List Char) :
    quotedBody quote false (escape quote cs ++ quote :: rest) = .ok (cs, rest) := by
  induction cs with
  | nil => rw [escape, List.nil_append, quotedBody, if_neg Bool.false_ne_true, if_pos rfl]
  | cons c cs ih =>
    rw [escape]
    by_cases hc : c = '\\' ∨ c = quote
    · have hbackslash : '\\' ≠ quote := (ne_backslash_of_isQuote h).symm
      rw [if_pos (by simpa using hc), List.cons_append, List.cons_append, quotedBody, if_neg Bool.false_ne_true,
        if_neg hbackslash, if_pos rfl, quotedBody, if_pos rfl, ih, unescape_of_escaped h hc]
      rfl
    · rw [if_neg (by simpa using hc), List.cons_append, quotedBody, if_neg Bool.false_ne_true,
        if_neg fun heq => hc (.inr heq), if_neg fun heq => hc (.inl heq), ih]
      rfl

/-- **A text between quotes is read back**, whatever characters it has. -/
theorem reads_quoted {quote : Char} (h : isQuote quote = true) (s : String) (rest : List Char) :
    Reads (quoted (quotedText quote s ++ rest)) s rest := by
  have hbody := quotedBody_escape h s.toList rest
  rw [quotedText, List.cons_append, List.append_assoc, List.singleton_append]
  refine ⟨Nat.lt_succ_of_lt (quotedBody_shorter hbody), ?_⟩
  rw [quoted]
  split
  · next heq =>
    rw [hbody] at heq
    cases heq
  · next heq =>
    rw [hbody] at heq
    cases heq
  · next heq =>
    rw [hbody] at heq
    cases heq
    rw [String.ofList_toList]

/-! ### Whole numbers -/

def wholeText (i : Int) : List Char :=
  (if i < 0 then ['-'] else []) ++ Nat.toDigits 10 i.natAbs

/-- The digits of a number do not start with a sign. -/
theorem head?_toDigits_ne_minus (n : Nat) : (Nat.toDigits 10 n).head? ≠ some '-' := by
  intro h
  have hdigit := (digits_toDigits n).2 '-' (List.mem_of_mem_head? h)
  exact absurd hdigit (by decide)

theorem wholeText_of_neg {i : Int} (h : i < 0) : wholeText i = '-' :: Nat.toDigits 10 i.natAbs := by
  rw [wholeText, if_pos h]
  rfl

theorem wholeText_of_not_neg {i : Int} (h : ¬ i < 0) : wholeText i = Nat.toDigits 10 i.natAbs := by
  rw [wholeText, if_neg h]
  rfl

theorem integerText_of_unsigned {cs : List Char} (h : cs.head? ≠ some '-') :
    integerText cs = (cs.takeWhile Char.isDigit, cs.dropWhile Char.isDigit) := by
  unfold integerText
  split
  · exact absurd rfl h
  · rfl

theorem integerText_wholeText (i : Int) {rest : List Char} (h : Stops Char.isDigit rest) :
    integerText (wholeText i ++ rest) = (wholeText i, rest) := by
  obtain ⟨htake, hdrop⟩ := span_iff.mpr ⟨rfl, (digits_toDigits i.natAbs).2, h⟩
  by_cases hi : i < 0
  · rw [wholeText_of_neg hi, List.cons_append, integerText, htake, hdrop]
  · rw [wholeText_of_not_neg hi, integerText_of_unsigned, htake, hdrop]
    rw [List.head?_append_of_ne_nil _ Nat.toDigits_ne_nil]
    exact head?_toDigits_ne_minus i.natAbs

theorem int64?_of_unsigned {cs : List Char} (h : cs.head? ≠ some '-') :
    int64? cs = if !cs.isEmpty && digitsValue cs < signedLimit then some (digitsValue cs : Int) else none := by
  unfold int64?
  split
  · exact absurd rfl h
  · rfl

theorem int64?_wholeText {i : Int} (hlow : -(signedLimit : Int) ≤ i) (hhigh : i < signedLimit) :
    int64? (wholeText i) = some i := by
  have hsome : (Nat.toDigits 10 i.natAbs).isEmpty = false := List.isEmpty_eq_false_iff.mpr Nat.toDigits_ne_nil
  by_cases hi : i < 0
  · have hbound : i.natAbs ≤ signedLimit := by omega
    have hvalue : -(i.natAbs : Int) = i := by omega
    rw [wholeText_of_neg hi, int64?, digitsValue_toDigits, hsome, hvalue, if_pos]
    simp [hbound]
  · have hbound : i.natAbs < signedLimit := by omega
    have hvalue : (i.natAbs : Int) = i := by omega
    rw [wholeText_of_not_neg hi, int64?_of_unsigned (head?_toDigits_ne_minus _), digitsValue_toDigits, hsome, hvalue,
      if_pos]
    simp [hbound]

theorem wholeText_ne_nil (i : Int) : wholeText i ≠ [] := by
  rw [wholeText]
  exact List.append_ne_nil_of_right_ne_nil _ Nat.toDigits_ne_nil

/-- The first character of a whole number. -/
theorem exists_wholeText (i : Int) : ∃ c cs, wholeText i = c :: cs ∧ startsNumber c = true := by
  by_cases hi : i < 0
  · exact ⟨'-', _, wholeText_of_neg hi, rfl⟩
  · rw [wholeText_of_not_neg hi]
    obtain ⟨hne, hdigits⟩ := digits_toDigits i.natAbs
    obtain ⟨c, cs, heq⟩ := List.exists_cons_of_ne_nil hne
    have hc : c.isDigit = true := hdigits c (heq ▸ List.mem_cons_self ..)
    exact ⟨c, cs, heq, by rw [startsNumber, hc, Bool.or_true]⟩

/-- **A whole number of 64 bits is read back.** -/
theorem reads_integer {i : Int} (hlow : -(signedLimit : Int) ≤ i) (hhigh : i < signedLimit) {rest : List Char}
    (h : Stops Char.isDigit rest) : Reads (integer (wholeText i ++ rest)) i rest := by
  have hlength : rest.length < (wholeText i ++ rest).length := by
    have := List.length_pos_of_ne_nil (wholeText_ne_nil i)
    rw [List.length_append]
    omega
  have htext := integerText_wholeText i h
  refine ⟨hlength, ?_⟩
  rw [integer, htext, int64?_wholeText hlow hhigh]
  exact dif_pos hlength

/-- What a whole number is written with is a numeral. -/
theorem numberText_wholeText {i : Int} (hlow : -(signedLimit : Int) ≤ i) (hhigh : i < wordLimit) :
    Json.Grammar.NumberText (wholeText i) (.int i) := by
  have hnumeral : Json.Grammar.IsNumeral ⟨decide (i < 0), Nat.toDigits 10 i.natAbs, none, none⟩ :=
    ⟨digits_toDigits _, toDigits_of_head?_zero, (fun _ h => nomatch h), (fun _ _ _ h => nomatch h)⟩
  have htext : Json.Grammar.numeralChars ⟨decide (i < 0), Nat.toDigits 10 i.natAbs, none, none⟩ = wholeText i := by
    simp [Json.Grammar.numeralChars, Json.Grammar.fractionChars, Json.Grammar.exponentChars, wholeText]
  rw [← htext]
  refine .mk hnumeral ?_
  rw [Number.ofNumeral?]
  simp only [digitsValue_toDigits]
  by_cases hi : i < 0
  · have hbound : i.natAbs ≤ signedLimit := by omega
    have hpos : 0 < i.natAbs := by omega
    have hvalue : -(i.natAbs : Int) = i := by omega
    generalize i.natAbs = n at hbound hpos hvalue ⊢
    simp [Numeral.isWhole, hi, hbound, hpos, hvalue]
  · have hbound : i.natAbs < wordLimit := by omega
    have hvalue : (i.natAbs : Int) = i := by omega
    generalize i.natAbs = n at hbound hvalue ⊢
    simp [Numeral.isWhole, hi, hbound, hvalue]

/-- **A whole number that a number of 64 bits holds is read back**, with or without a sign. -/
theorem reads_number {i : Int} (hlow : -(signedLimit : Int) ≤ i) (hhigh : i < wordLimit) {rest : List Char}
    (h : Stops isNumeralChar rest) : Reads (number (wholeText i ++ rest)) (.int i) rest := by
  have htext := numberText_wholeText hlow hhigh
  have hnumber := Json.Grammar.ofChars?_eq_some_iff_numberText.mpr htext
  obtain ⟨c, cs, heq, -⟩ := Json.Grammar.numberText_first htext
  have hchars : ∀ d ∈ cs, isNumeralChar d = true := by
    intro d hd
    have hmem : d ∈ wholeText i := heq ▸ List.mem_cons_of_mem c hd
    exact Json.Grammar.isNumeralChar_of_numberText htext d hmem
  obtain ⟨htake, hdrop⟩ := span_iff.mpr ⟨rfl, hchars, h⟩
  rw [heq] at hnumber
  rw [heq, List.cons_append]
  refine ⟨?_, ?_⟩
  · simp only [List.length_cons, List.length_append]
    omega
  · rw [number, htake, hnumber]
    simp only [hdrop]

end Query.Reader

end ApiLint
