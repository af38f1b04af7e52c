import ApiLint.Proofs.Json.Grammar
import Mathlib.Data.List.TakeWhile

/-!
# Numerals

`Numeral.ofChars?` takes a text apart, from left to right, and fails where a part is not what it should
be.  The main fact is `ofChars?_eq_some_iff`: it succeeds on what the grammar says is a numeral, and on
nothing else.  A part ends where its digits do, so each step is an instance of `span_iff`, which says what
`takeWhile` and `dropWhile` split a list into.

A number is a numeral that is not too large (`ofChars?_eq_some_iff_numberText`).  That its characters are
of a kind, and which of them may come first, is what the readers of longer texts go by.
-/

namespace ApiLint.Json.Grammar

/-! ### Runs of characters -/

/-- What comes next, if anything does, is not of the kind `p`. -/
def Stops {α : Type} (p : α → Bool) (rest : List α) : Prop :=
  ∀ c, rest.head? = some c → p c = false

theorem stops_nil {α : Type} (p : α → Bool) : Stops p [] := by
  intro c h
  cases h

theorem stops_cons {α : Type} {p : α → Bool} {c : α} {cs : List α} (h : p c = false) :
    Stops p (c :: cs) := by
  intro d hd
  rw [List.head?_cons, Option.some.injEq] at hd
  rw [← hd, h]

/-- The longest run of a kind in front of a list, and the rest of the list. -/
theorem span_iff {α : Type} {p : α → Bool} {l run rest : List α} :
    l.takeWhile p = run ∧ l.dropWhile p = rest ↔
      l = run ++ rest ∧ (∀ c ∈ run, p c = true) ∧ Stops p rest := by
  constructor
  · rintro ⟨rfl, rfl⟩
    refine ⟨List.takeWhile_append_dropWhile.symm, fun c hc => List.mem_takeWhile_imp hc, fun c hc => ?_⟩
    have := List.head?_dropWhile_not p l
    rw [hc] at this
    simpa using this
  · rintro ⟨rfl, hrun, hrest⟩
    rw [List.takeWhile_append_of_pos hrun, List.dropWhile_append_of_pos hrun]
    cases rest with
    | nil => exact ⟨List.append_nil run, rfl⟩
    | cons c rest =>
      have hc : ¬ p c = true := by
        rw [hrest c rfl]
        exact Bool.false_ne_true
      rw [List.takeWhile_cons_of_neg hc, List.dropWhile_cons_of_neg hc]
      exact ⟨List.append_nil run, rfl⟩

/-! ### Exponents -/

theorem not_isDigit_of_mem_sign {c : Char} (h : c = '+' ∨ c = '-') : ¬ c.isDigit = true := by
  rcases h with rfl | rfl <;> decide

theorem exponentSign_append {sign : Option Char} {ds : List Char}
    (hsign : sign = none ∨ sign = some '+' ∨ sign = some '-') (hds : Digits ds) :
    Numeral.exponentSign (sign.toList ++ ds) = (sign, ds) := by
  rcases hsign with rfl | rfl | rfl
  · cases ds with
    | nil => exact absurd rfl hds.1
    | cons d ds =>
      have hd := hds.2 d List.mem_cons_self
      rw [Option.toList, List.nil_append, Numeral.exponentSign]
      · intro cs h
        exact not_isDigit_of_mem_sign (Or.inl (List.cons.inj h).1) hd
      · intro cs h
        exact not_isDigit_of_mem_sign (Or.inr (List.cons.inj h).1) hd
  · rfl
  · rfl

theorem exponentSign_eq {cs ds : List Char} {sign : Option Char}
    (h : Numeral.exponentSign cs = (sign, ds)) :
    cs = sign.toList ++ ds ∧ (sign = none ∨ sign = some '+' ∨ sign = some '-') := by
  unfold Numeral.exponentSign at h
  split at h
  all_goals
    rw [Prod.mk.injEq] at h
    obtain ⟨rfl, rfl⟩ := h
  · exact ⟨rfl, Or.inr (Or.inl rfl)⟩
  · exact ⟨rfl, Or.inr (Or.inr rfl)⟩
  · exact ⟨rfl, Or.inl rfl⟩

theorem digits_iff {ds : List Char} : (!ds.isEmpty && ds.all Char.isDigit) = true ↔ Digits ds := by
  simp [Digits]

theorem exponentOf?_eq_some_iff {cs : List Char} {x : Option (Char × Option Char × List Char)} :
    Numeral.exponentOf? cs = some x ↔ exponentChars x = cs ∧ IsExponent x := by
  constructor
  · intro h
    cases cs with
    | nil =>
      rw [Numeral.exponentOf?, Option.some.injEq] at h
      subst h
      exact ⟨rfl, fun _ _ _ h => by cases h⟩
    | cons c cs =>
      obtain ⟨sign, ds, hs⟩ : ∃ sign ds, Numeral.exponentSign cs = (sign, ds) := ⟨_, _, rfl⟩
      rw [Numeral.exponentOf?, hs, Option.ite_none_right_eq_some] at h
      obtain ⟨hc, h⟩ := h
      obtain ⟨hds, hx⟩ := Option.ite_none_right_eq_some.mp h
      rw [Option.some.injEq] at hx
      subst hx
      obtain ⟨rfl, hsign⟩ := exponentSign_eq hs
      refine ⟨rfl, fun e sign ds h => ?_⟩
      cases h
      exact ⟨by simpa using hc, hsign, digits_iff.mp hds⟩
  · rintro ⟨rfl, hx⟩
    cases x with
    | none => rfl
    | some x =>
      obtain ⟨e, sign, ds⟩ := x
      obtain ⟨he, hsign, hds⟩ := hx e sign ds rfl
      rw [exponentChars, Numeral.exponentOf?, exponentSign_append hsign hds, if_pos (by simpa using he)]
      exact if_pos (digits_iff.mpr hds)

/-! ### Fractions -/

theorem stops_exponentChars {x : Option (Char × Option Char × List Char)} (h : IsExponent x) :
    Stops Char.isDigit (exponentChars x) := by
  cases x with
  | none => exact stops_nil _
  | some x =>
    obtain ⟨e, sign, ds⟩ := x
    refine stops_cons ?_
    rcases (h e sign ds rfl).1 with rfl | rfl <;> decide

theorem stops_tailChars (fraction : Option (List Char)) {x : Option (Char × Option Char × List Char)}
    (h : IsExponent x) : Stops Char.isDigit (fractionChars fraction ++ exponentChars x) := by
  cases fraction with
  | none => exact stops_exponentChars h
  | some ds => exact stops_cons (by decide)

theorem tailOf?_exponentChars {x : Option (Char × Option Char × List Char)} (h : IsExponent x) :
    Numeral.tailOf? (exponentChars x) = some (none, x) := by
  have hx : Numeral.exponentOf? (exponentChars x) = some x := exponentOf?_eq_some_iff.mpr ⟨rfl, h⟩
  unfold Numeral.tailOf?
  split
  · rename_i cs hcs
    cases x with
    | none => cases hcs
    | some x =>
      obtain ⟨e, sign, ds⟩ := x
      rw [exponentChars, List.cons.injEq] at hcs
      rcases (h e sign ds rfl).1 with rfl | rfl
      · exact absurd hcs.1 (by decide)
      · exact absurd hcs.1 (by decide)
  · rw [hx]
    rfl

theorem tailOf?_eq_some_iff {cs : List Char} {fraction : Option (List Char)}
    {x : Option (Char × Option Char × List Char)} :
    Numeral.tailOf? cs = some (fraction, x) ↔
      fractionChars fraction ++ exponentChars x = cs ∧ IsFraction fraction ∧ IsExponent x := by
  constructor
  · intro h
    unfold Numeral.tailOf? at h
    split at h
    · rename_i cs
      obtain ⟨hne, h⟩ := Option.ite_none_left_eq_some.mp h
      obtain ⟨y, hy, h⟩ := Option.map_eq_some_iff.mp h
      rw [Prod.mk.injEq] at h
      obtain ⟨rfl, rfl⟩ := h
      obtain ⟨hdrop, hexponent⟩ := exponentOf?_eq_some_iff.mp hy
      refine ⟨?_, fun ds hds => ?_, hexponent⟩
      · rw [fractionChars, hdrop, List.cons_append, List.takeWhile_append_dropWhile]
      · rw [Option.some.injEq] at hds
        subst hds
        exact ⟨fun h => hne (by rw [h]; rfl), fun d hd => List.mem_takeWhile_imp hd⟩
    · obtain ⟨y, hy, h⟩ := Option.map_eq_some_iff.mp h
      rw [Prod.mk.injEq] at h
      obtain ⟨rfl, rfl⟩ := h
      obtain ⟨rfl, hexponent⟩ := exponentOf?_eq_some_iff.mp hy
      exact ⟨rfl, (fun _ h => by cases h), hexponent⟩
  · rintro ⟨rfl, hfraction, hexponent⟩
    cases fraction with
    | none => exact tailOf?_exponentChars hexponent
    | some ds =>
      obtain ⟨hne, hds⟩ := hfraction ds rfl
      obtain ⟨htake, hdrop⟩ := span_iff.mpr ⟨rfl, hds, stops_exponentChars hexponent⟩
      rw [fractionChars, List.cons_append, Numeral.tailOf?, htake, hdrop,
        exponentOf?_eq_some_iff.mpr ⟨rfl, hexponent⟩, if_neg]
      · rfl
      · rw [List.isEmpty_iff]
        exact hne

/-! ### Numerals -/

theorem wholeOk_iff {ds : List Char} (h : ∀ d ∈ ds, d.isDigit = true) :
    Numeral.wholeOk ds = true ↔ Digits ds ∧ (ds.head? = some '0' → ds = ['0']) := by
  cases ds with
  | nil => simp [Numeral.wholeOk, Digits]
  | cons d ds =>
    have hd : Digits (d :: ds) := ⟨List.cons_ne_nil d ds, h⟩
    by_cases h0 : d = '0'
    · subst h0
      simp [Numeral.wholeOk, hd]
    · simp [Numeral.wholeOk, hd, h0]

theorem signOf_append (negative : Bool) (ds : List Char) (h : ∀ c, ds.head? = some c → c ≠ '-') :
    Numeral.signOf ((if negative then ['-'] else []) ++ ds) = (negative, ds) := by
  cases negative with
  | true => rfl
  | false =>
    rw [if_neg Bool.false_ne_true, List.nil_append]
    unfold Numeral.signOf
    split
    · exact absurd rfl (h '-' rfl)
    · rfl

theorem signOf_eq {cs ds : List Char} {negative : Bool} (h : Numeral.signOf cs = (negative, ds)) :
    cs = (if negative then ['-'] else []) ++ ds := by
  unfold Numeral.signOf at h
  split at h
  all_goals
    rw [Prod.mk.injEq] at h
    obtain ⟨rfl, rfl⟩ := h
    rfl

/-- **Taking a text apart gives a numeral exactly if the text is that numeral.** -/
theorem ofChars?_eq_some_iff {cs : List Char} {n : Numeral} :
    Numeral.ofChars? cs = some n ↔ IsNumeral n ∧ numeralChars n = cs := by
  constructor
  · intro h
    obtain ⟨negative, ds, hsign⟩ : ∃ negative ds, Numeral.signOf cs = (negative, ds) := ⟨_, _, rfl⟩
    rw [Numeral.ofChars?, hsign] at h
    obtain ⟨hwhole, h⟩ := Option.ite_none_right_eq_some.mp h
    obtain ⟨⟨fraction, x⟩, htail, h⟩ := Option.map_eq_some_iff.mp h
    subst h
    obtain ⟨hdrop, hfraction, hexponent⟩ := tailOf?_eq_some_iff.mp htail
    have hdigits := (wholeOk_iff fun d hd => List.mem_takeWhile_imp hd).mp hwhole
    refine ⟨⟨hdigits.1, hdigits.2, hfraction, hexponent⟩, ?_⟩
    rw [numeralChars, signOf_eq hsign, List.append_assoc, List.append_assoc, hdrop,
      List.takeWhile_append_dropWhile]
  · rintro ⟨h, rfl⟩
    obtain ⟨negative, whole, fraction, x⟩ := n
    obtain ⟨hwhole, hzero, hfraction, hexponent⟩ := h
    have hsign := signOf_append negative (whole ++ (fractionChars fraction ++ exponentChars x)) <| by
      intro c hc hminus
      cases whole with
      | nil => exact hwhole.1 rfl
      | cons d whole =>
        rw [List.cons_append, List.head?_cons, Option.some.injEq] at hc
        have hd := hwhole.2 d List.mem_cons_self
        rw [hc, hminus] at hd
        exact not_isDigit_of_mem_sign (Or.inr rfl) hd
    obtain ⟨htake, hdrop⟩ := span_iff.mpr ⟨rfl, hwhole.2, stops_tailChars fraction hexponent⟩
    rw [numeralChars, List.append_assoc, List.append_assoc, Numeral.ofChars?, hsign]
    -- `span_iff` has split off the whole digits, but they stand behind a projection of the sign
    show (if Numeral.wholeOk (List.takeWhile _ _) = true then _ else none) = _
    rw [htake, hdrop, if_pos ((wholeOk_iff hwhole.2).mpr ⟨hwhole, hzero⟩),
      tailOf?_eq_some_iff.mpr ⟨rfl, hfraction, hexponent⟩]
    rfl

/-! ### Numbers -/

theorem isNumeralChar_of_isDigit {c : Char} (h : c.isDigit = true) : isNumeralChar c = true := by
  simp [isNumeralChar, h]

theorem isNumeralChar_of_mem_numeralChars {n : Numeral} (h : IsNumeral n) :
    ∀ c ∈ numeralChars n, isNumeralChar c = true := by
  have hsign : ∀ c ∈ (if n.negative then ['-'] else []), isNumeralChar c = true := by
    cases n.negative <;> simp [isNumeralChar]
  have hfraction : ∀ c ∈ fractionChars n.fraction, isNumeralChar c = true := by
    intro c hc
    cases hf : n.fraction with
    | none =>
      rw [hf] at hc
      cases hc
    | some ds =>
      rw [hf] at hc
      rcases List.mem_cons.mp hc with rfl | hc
      · decide
      · exact isNumeralChar_of_isDigit ((h.fraction ds hf).2 c hc)
  have hexponent : ∀ c ∈ exponentChars n.exponent, isNumeralChar c = true := by
    intro c hc
    cases hx : n.exponent with
    | none =>
      rw [hx] at hc
      cases hc
    | some x =>
      obtain ⟨e, sign, ds⟩ := x
      obtain ⟨he, hsign, hds⟩ := h.exponent e sign ds hx
      rw [hx, exponentChars, List.mem_cons, List.mem_append] at hc
      rcases hc with rfl | hc | hc
      · rcases he with rfl | rfl <;> decide
      · rcases hsign with rfl | rfl | rfl
        · cases hc
        · rw [List.mem_singleton.mp hc]
          decide
        · rw [List.mem_singleton.mp hc]
          decide
      · exact isNumeralChar_of_isDigit (hds.2 c hc)
  intro c hc
  rw [numeralChars, List.mem_append, List.mem_append, List.mem_append] at hc
  rcases hc with ((hc | hc) | hc) | hc
  · exact hsign c hc
  · exact isNumeralChar_of_isDigit (h.whole.2 c hc)
  · exact hfraction c hc
  · exact hexponent c hc

theorem ofChars?_eq_some_iff_numberText {cs : List Char} {m : Number} :
    Number.ofChars? cs = some m ↔ NumberText cs m := by
  rw [Number.ofChars?, Option.bind_eq_some_iff]
  constructor
  · rintro ⟨n, hn, hm⟩
    obtain ⟨hn', rfl⟩ := ofChars?_eq_some_iff.mp hn
    exact .mk hn' hm
  · intro h
    cases h with
    | mk hn hm => exact ⟨_, ofChars?_eq_some_iff.mpr ⟨hn, rfl⟩, hm⟩

theorem isNumeralChar_of_numberText {cs : List Char} {m : Number} (h : NumberText cs m) :
    ∀ c ∈ cs, isNumeralChar c = true := by
  cases h with
  | mk hn _ => exact isNumeralChar_of_mem_numeralChars hn

/-- The first character of a number. -/
theorem numberText_first {cs : List Char} {m : Number} (h : NumberText cs m) :
    ∃ d ds, cs = d :: ds ∧ (d = '-' || d.isDigit) = true := by
  cases h with
  | @mk n _ hn _ =>
    rw [numeralChars, List.append_assoc, List.append_assoc]
    cases n.negative with
    | true => exact ⟨'-', _, rfl, by decide⟩
    | false =>
      cases hw : n.whole with
      | nil => exact absurd hw hn.whole.1
      | cons d ds =>
        have hd := hn.whole.2 d (by rw [hw]; exact List.mem_cons_self)
        exact ⟨d, _, rfl, by simp [hd]⟩

end ApiLint.Json.Grammar
