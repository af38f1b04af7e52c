import ApiLint.Json.StringLiteral
import ApiLint.Proofs.Json.Grammar
import Mathlib.Tactic.IntervalCases

/-!
# String literals

A string literal is read in two passes that know little of each other: `StringLiteral.scan` finds the
closing quote, and `StringLiteral.decode` replaces the escapes before it.

* `scan_eq_ok_iff`: what the scan takes is what has no bare quote and no bare control character, up to a
  quote that is not hidden (`Scanned`).
* `escape_eq_ok_iff`: an escape is taken exactly if it is the text of a character, be it of one unit or of
  the two units of a pair.
* `decode_eq_ok_iff`: of what was scanned, exactly the sequences of characters are decoded.  For this the
  passes must agree: nothing that an escape takes in hides a quote or is one (`scanned_append_iff`).
-/

namespace ApiLint.Json.Grammar

open StringLiteral

/-! ### The closing quote -/

/-- Without a quote or a control character that is not hidden, up to a point where nothing is hidden.
The flag says that the first character is. -/
def Scanned : Bool → List Char → Prop
  | hidden, [] => hidden = false
  | true, _ :: cs => Scanned false cs
  | false, c :: cs => c ≠ '"' ∧ 0x20 ≤ c.toNat ∧ Scanned (c = '\\') cs

theorem map_eq_ok_iff {ε α β : Type} {e : Except ε α} {f : α → β} {b : β} :
    e.map f = .ok b ↔ ∃ a, e = .ok a ∧ f a = b := by
  cases e with
  | error e => simp [Except.map]
  | ok a => simp [Except.map]

theorem scan_append_quote {hidden : Bool} {body : List Char} (h : Scanned hidden body) (p : Position)
    (rest : List Char) : ∃ q, scan p hidden (body ++ '"' :: rest) = .ok (body, q, rest) := by
  induction body generalizing hidden p with
  | nil =>
    cases h
    exact ⟨p.past '"', rfl⟩
  | cons c cs ih =>
    rw [List.cons_append, scan]
    cases hidden with
    | true =>
      obtain ⟨q, hq⟩ := ih h (p.past c)
      rw [if_pos rfl, hq]
      exact ⟨q, rfl⟩
    | false =>
      obtain ⟨hquote, hcontrol, hcs⟩ := h
      obtain ⟨q, hq⟩ := ih hcs (p.past c)
      rw [if_neg Bool.false_ne_true, if_neg hquote, if_neg (Nat.not_lt.mpr hcontrol), hq]
      exact ⟨q, rfl⟩

theorem eq_append_quote_of_scan {p q : Position} {hidden : Bool} {cs body rest : List Char}
    (h : scan p hidden cs = .ok (body, q, rest)) : cs = body ++ '"' :: rest ∧ Scanned hidden body := by
  induction cs generalizing p hidden body with
  | nil => cases h
  | cons c cs ih =>
    rw [scan] at h
    cases hidden with
    | true =>
      rw [if_pos rfl] at h
      obtain ⟨⟨ds, q', rest'⟩, hds, heq⟩ := map_eq_ok_iff.mp h
      cases heq
      obtain ⟨rfl, hscanned⟩ := ih hds
      exact ⟨rfl, hscanned⟩
    | false =>
      rw [if_neg Bool.false_ne_true] at h
      by_cases hquote : c = '"'
      · rw [if_pos hquote, Except.ok.injEq, Prod.mk.injEq, Prod.mk.injEq] at h
        obtain ⟨rfl, -, rfl⟩ := h
        exact ⟨by rw [hquote, List.nil_append], rfl⟩
      · rw [if_neg hquote] at h
        by_cases hcontrol : c.toNat < 0x20
        · rw [if_pos hcontrol] at h
          cases h
        · rw [if_neg hcontrol] at h
          obtain ⟨⟨ds, q', rest'⟩, hds, heq⟩ := map_eq_ok_iff.mp h
          cases heq
          obtain ⟨rfl, hscanned⟩ := ih hds
          exact ⟨rfl, hquote, Nat.not_lt.mp hcontrol, hscanned⟩

/-- **The scan stops at the first quote that is not hidden.** -/
theorem scan_eq_ok_iff {p : Position} {cs body rest : List Char} :
    (∃ q, scan p false cs = .ok (body, q, rest)) ↔ cs = body ++ '"' :: rest ∧ Scanned false body := by
  constructor
  · rintro ⟨q, h⟩
    exact eq_append_quote_of_scan h
  · rintro ⟨rfl, h⟩
    exact scan_append_quote h p rest

/-! ### Units -/

theorem HexDigit.lt {c : Char} {n : Nat} (h : HexDigit c n) : n < 16 := by
  rcases h with h | h
  · exact (List.getElem?_eq_some_iff.mp h).1
  · exact (List.getElem?_eq_some_iff.mp h).1

theorem hexDigit?_of_hexDigit {c : Char} {n : Nat} (h : HexDigit c n) : hexDigit? c = some n := by
  have hn := h.lt
  rcases h with h | h
  all_goals
    interval_cases n
    all_goals
      cases h
      decide

theorem hexDigit_of_hexDigit? {c : Char} {n : Nat} (h : hexDigit? c = some n) : HexDigit c n := by
  have hdigit : ∀ m, 48 ≤ m → m ≤ 57 → HexDigit (Char.ofNat m) (m - 48) := by
    intro m h1 h2
    unfold HexDigit
    interval_cases m <;> decide
  have hlower : ∀ m, 97 ≤ m → m ≤ 102 → HexDigit (Char.ofNat m) (m - 97 + 10) := by
    intro m h1 h2
    unfold HexDigit
    interval_cases m <;> decide
  have hupper : ∀ m, 65 ≤ m → m ≤ 70 → HexDigit (Char.ofNat m) (m - 65 + 10) := by
    intro m h1 h2
    unfold HexDigit
    interval_cases m <;> decide
  rw [← Char.ofNat_toNat c]
  -- the three ranges of the reader, each digit of which stands in one of the two words
  rw [hexDigit?] at h
  split at h
  · rename_i hc
    cases h
    exact hdigit _ hc.1 hc.2
  · split at h
    · rename_i hc
      cases h
      exact hlower _ hc.1 hc.2
    · split at h
      · rename_i hc
        cases h
        exact hupper _ hc.1 hc.2
      · cases h

theorem hexDigit?_eq_some_iff {c : Char} {n : Nat} : hexDigit? c = some n ↔ HexDigit c n :=
  ⟨hexDigit_of_hexDigit?, hexDigit?_of_hexDigit⟩

/-- A hexadecimal digit neither ends a literal nor hides what follows. -/
theorem HexDigit.scanned_cons_iff {c : Char} {n : Nat} (h : HexDigit c n) {cs : List Char} :
    Scanned false (c :: cs) ↔ Scanned false cs := by
  have hc : c ≠ '"' ∧ 0x20 ≤ c.toNat ∧ decide (c = '\\') = false := by
    have hn := h.lt
    rcases h with h | h
    all_goals
      interval_cases n
      all_goals
        cases h
        decide
  rw [Scanned, hc.2.2]
  exact ⟨fun h => h.2.2, fun h => ⟨hc.1, hc.2.1, h⟩⟩

theorem hex4?_eq_some_iff {a b c d : Char} {m : Nat} :
    hex4? a b c d = some m ↔ UnitText ['\\', 'u', a, b, c, d] m := by
  constructor
  · intro h
    simp only [hex4?, Option.bind_eq_bind, Option.bind_eq_some_iff, hexDigit?_eq_some_iff] at h
    obtain ⟨i, hi, j, hj, k, hk, l, hl, h⟩ := h
    cases h
    exact .mk hi hj hk hl
  · intro h
    cases h with
    | mk hi hj hk hl =>
      rw [← hexDigit?_eq_some_iff] at hi hj hk hl
      simp [hex4?, hi, hj, hk, hl]

theorem UnitText.exists_cons {cs : List Char} {m : Nat} (h : UnitText cs m) :
    ∃ a b c d, cs = ['\\', 'u', a, b, c, d] := by
  cases h
  exact ⟨_, _, _, _, rfl⟩

theorem UnitText.lt {cs : List Char} {m : Nat} (h : UnitText cs m) : m < 0x10000 := by
  cases h with
  | mk hi hj hk hl =>
    have := hi.lt
    have := hj.lt
    have := hk.lt
    have := hl.lt
    omega

/-- Four digits are read exactly if they make up the escape of a unit. -/
theorem unit_eq_ok_iff {n m : Nat} {cs rest : List Char} :
    (∃ h, unit n cs = .ok (m, ⟨rest, h⟩)) ↔ ∃ us, UnitText ('\\' :: 'u' :: us) m ∧ cs = us ++ rest := by
  constructor
  · rintro ⟨h, hu⟩
    unfold unit at hu
    split at hu
    · rename_i a b c d cs
      cases hm : hex4? a b c d with
      | none =>
        rw [hm] at hu
        cases hu
      | some k =>
        rw [hm] at hu
        cases hu
        exact ⟨[a, b, c, d], hex4?_eq_some_iff.mp hm, rfl⟩
    · split at hu
      · cases hu
      · cases hu
  · rintro ⟨us, hm, rfl⟩
    obtain ⟨a, b, c, d, h⟩ := hm.exists_cons
    cases h
    have hlength : rest.length < (a :: b :: c :: d :: rest).length := by
      simp only [List.length_cons]
      omega
    refine ⟨hlength, ?_⟩
    simp only [List.cons_append, List.nil_append, unit, hex4?_eq_some_iff.mpr hm]

/-! ### Characters -/

theorem toNat_ofNat_of_isValidChar {m : Nat} (h : m.isValidChar) : (Char.ofNat m).toNat = m := by
  rw [Char.ofNat, dif_pos h]
  rfl

theorem utf16_ofNat {m : Nat} (h : m < 0x10000) (hlow : ¬ isLowSurrogate m = true)
    (hhigh : ¬ isHighSurrogate m = true) : utf16 (Char.ofNat m) = [m] := by
  have hvalid : m.isValidChar := by
    simp only [isLowSurrogate, isHighSurrogate, Bool.and_eq_true, decide_eq_true_eq] at hlow hhigh
    simp only [Nat.isValidChar]
    omega
  rw [utf16, toNat_ofNat_of_isValidChar hvalid, if_pos h]

theorem utf16_pair {high low : Nat} (hhigh : isHighSurrogate high = true)
    (hlow : isLowSurrogate low = true) : utf16 (pair high low) = [high, low] := by
  simp only [isLowSurrogate, isHighSurrogate, Bool.and_eq_true, decide_eq_true_eq] at hlow hhigh
  have hvalid : ((high - 0xD800) * 0x400 + (low - 0xDC00) + 0x10000).isValidChar := by
    simp only [Nat.isValidChar]
    omega
  rw [utf16, pair, toNat_ofNat_of_isValidChar hvalid, if_neg (by omega), List.cons.injEq, List.cons.injEq]
  exact ⟨by omega, by omega, rfl⟩

theorem eq_of_utf16_singleton {c : Char} {m : Nat} (h : utf16 c = [m]) :
    ¬ isLowSurrogate m = true ∧ ¬ isHighSurrogate m = true ∧ Char.ofNat m = c := by
  rw [utf16] at h
  split at h
  · rw [List.cons.injEq] at h
    rw [← h.1]
    have hvalid : c.toNat.isValidChar := c.valid
    simp only [Nat.isValidChar] at hvalid
    simp only [isLowSurrogate, isHighSurrogate, Bool.and_eq_true, decide_eq_true_eq]
    exact ⟨by omega, by omega, Char.ofNat_toNat c⟩
  · cases h

theorem eq_of_utf16_pair {c : Char} {high low : Nat} (h : utf16 c = [high, low]) :
    isHighSurrogate high = true ∧ isLowSurrogate low = true ∧ pair high low = c := by
  rw [utf16] at h
  split at h
  · cases h
  · rw [List.cons.injEq, List.cons.injEq] at h
    have hvalid : c.toNat.isValidChar := c.valid
    simp only [Nat.isValidChar] at hvalid
    simp only [isLowSurrogate, isHighSurrogate, Bool.and_eq_true, decide_eq_true_eq]
    refine ⟨by omega, by omega, ?_⟩
    rw [pair, show (high - 0xD800) * 0x400 + (low - 0xDC00) + 0x10000 = c.toNat by omega, Char.ofNat_toNat]

theorem utf16_eq (c : Char) : (∃ m, utf16 c = [m]) ∨ ∃ high low, utf16 c = [high, low] := by
  rw [utf16]
  split
  · exact Or.inl ⟨_, rfl⟩
  · exact Or.inr ⟨_, _, rfl⟩

theorem sequence_singleton {α : Type} {E : List Char → α → Prop} {cs : List Char} {a : α} :
    Sequence E cs [a] ↔ E cs a := by
  constructor
  · intro h
    cases h with
    | cons ha hnil =>
      cases hnil
      rwa [List.append_nil]
  · intro h
    have := Sequence.cons h .nil
    rwa [List.append_nil] at this

theorem sequence_pair {α : Type} {E : List Char → α → Prop} {cs : List Char} {a b : α} :
    Sequence E cs [a, b] ↔ ∃ ds es, cs = ds ++ es ∧ E ds a ∧ E es b := by
  constructor
  · intro h
    cases h with
    | cons ha hb => exact ⟨_, _, rfl, ha, sequence_singleton.mp hb⟩
  · rintro ⟨ds, es, rfl, ha, hb⟩
    exact .cons ha (sequence_singleton.mpr hb)

theorem unicodeEscape_of_unit {n u : Nat} {cs rest : List Char} {h : rest.length < cs.length}
    (hu : unit n cs = .ok (u, ⟨rest, h⟩)) (hlow : ¬ isLowSurrogate u = true)
    (hhigh : ¬ isHighSurrogate u = true) :
    unicodeEscape n cs = .ok (Char.ofNat u, n + 4, ⟨rest, h⟩) := by
  simp only [unicodeEscape, hu]
  rw [if_neg hlow, if_neg hhigh]

theorem unicodeEscape_of_pair {n high low : Nat} {cs more rest : List Char}
    {h : ('\\' :: 'u' :: more).length < cs.length} {h' : rest.length < more.length}
    (hu : unit n cs = .ok (high, ⟨'\\' :: 'u' :: more, h⟩))
    (hu' : unit (n + 6) more = .ok (low, ⟨rest, h'⟩))
    (hhigh : isHighSurrogate high = true) (hlow : isLowSurrogate low = true) :
    ∃ h, unicodeEscape n cs = .ok (pair high low, n + 10, ⟨rest, h⟩) := by
  have hnot : ¬ isLowSurrogate high = true := by
    simp only [isHighSurrogate, isLowSurrogate, Bool.and_eq_true, decide_eq_true_eq] at hhigh ⊢
    omega
  refine ⟨by simp only [List.length_cons] at h; omega, ?_⟩
  simp only [unicodeEscape, hu]
  rw [if_neg hnot, if_pos hhigh]
  simp only [hu']
  rw [if_pos hlow]

/-- The digits after a backslash and `u` are read exactly if they go on to all units of a character. -/
theorem unicodeEscape_eq_ok_iff {n : Nat} {d : Char} {cs rest : List Char} :
    (∃ m h, unicodeEscape n cs = .ok (d, m, ⟨rest, h⟩)) ↔
      ∃ us, Sequence UnitText ('\\' :: 'u' :: us) (utf16 d) ∧ cs = us ++ rest := by
  constructor
  · rintro ⟨m, h, he⟩
    unfold unicodeEscape at he
    split at he
    · cases he
    · rename_i high left shorter hu
      obtain ⟨us, hus, rfl⟩ := unit_eq_ok_iff.mp ⟨shorter, hu⟩
      by_cases hlow : isLowSurrogate high = true
      · rw [if_pos hlow] at he
        cases he
      · rw [if_neg hlow] at he
        by_cases hhigh : isHighSurrogate high = true
        · rw [if_pos hhigh] at he
          split at he
          · rename_i more _
            split at he
            · cases he
            · rename_i low left' shorter' hu'
              obtain ⟨us', hus', rfl⟩ := unit_eq_ok_iff.mp ⟨shorter', hu'⟩
              by_cases hlow' : isLowSurrogate low = true
              · rw [if_pos hlow', Except.ok.injEq, Prod.mk.injEq, Prod.mk.injEq, Subtype.mk.injEq] at he
                obtain ⟨rfl, -, rfl⟩ := he
                refine ⟨us ++ '\\' :: 'u' :: us', ?_, by simp⟩
                rw [utf16_pair hhigh hlow']
                exact sequence_pair.mpr ⟨_, _, rfl, hus, hus'⟩
              · rw [if_neg hlow'] at he
                cases he
          · cases he
          · cases he
        · rw [if_neg hhigh, Except.ok.injEq, Prod.mk.injEq, Prod.mk.injEq, Subtype.mk.injEq] at he
          obtain ⟨rfl, -, rfl⟩ := he
          refine ⟨us, ?_, rfl⟩
          rw [utf16_ofNat hus.lt hlow hhigh]
          exact sequence_singleton.mpr hus
  · rintro ⟨us, hus, rfl⟩
    rcases utf16_eq d with ⟨u, hd⟩ | ⟨high, low, hd⟩
    · obtain ⟨hlow, hhigh, rfl⟩ := eq_of_utf16_singleton hd
      rw [hd, sequence_singleton] at hus
      obtain ⟨h, hu⟩ := unit_eq_ok_iff (n := n).mpr ⟨us, hus, rfl⟩
      exact ⟨n + 4, h, unicodeEscape_of_unit hu hlow hhigh⟩
    · obtain ⟨hhigh, hlow, rfl⟩ := eq_of_utf16_pair hd
      rw [hd, sequence_pair] at hus
      obtain ⟨ds, es, heq, hds, hes⟩ := hus
      obtain ⟨a, b, c, e, rfl⟩ := hds.exists_cons
      obtain ⟨a', b', c', e', rfl⟩ := hes.exists_cons
      cases heq
      -- the second unit starts where the first has ended, behind its own backslash and `u`
      obtain ⟨h', hu'⟩ := unit_eq_ok_iff (n := n + 6).mpr ⟨[a', b', c', e'], hes, rfl⟩
      obtain ⟨h, hu⟩ := unit_eq_ok_iff (n := n).mpr ⟨[a, b, c, e], hds, rfl⟩
      exact ⟨n + 10, unicodeEscape_of_pair hu hu' hhigh hlow⟩

theorem simpleEscape?_eq_some_iff {l c : Char} : simpleEscape? l = some c ↔ (l, c) ∈ letterEscapes := by
  constructor
  · intro h
    unfold simpleEscape? at h
    split at h
    all_goals
      cases h
      try decide
  · intro h
    simp only [letterEscapes, List.mem_cons, List.not_mem_nil, or_false, Prod.mk.injEq] at h
    rcases h with ⟨rfl, rfl⟩ | ⟨rfl, rfl⟩ | ⟨rfl, rfl⟩ | ⟨rfl, rfl⟩ | ⟨rfl, rfl⟩ | ⟨rfl, rfl⟩ |
      ⟨rfl, rfl⟩ | ⟨rfl, rfl⟩
    all_goals rfl

/-- The escapes of units start with a backslash and `u`. -/
theorem Sequence.exists_of_utf16 {cs : List Char} {c : Char} (h : Sequence UnitText cs (utf16 c)) :
    ∃ us, cs = '\\' :: 'u' :: us := by
  have hne : utf16 c ≠ [] := by
    rcases utf16_eq c with ⟨m, hm⟩ | ⟨high, low, hm⟩
    · rw [hm]
      exact List.cons_ne_nil _ _
    · rw [hm]
      exact List.cons_ne_nil _ _
  -- the units are an index of `h`, so that they are to be a variable for its cases
  generalize utf16 c = units at h hne
  cases h with
  | nil => exact absurd rfl hne
  | cons hu _ =>
    obtain ⟨a, b, c, d, rfl⟩ := hu.exists_cons
    exact ⟨_, rfl⟩

/-- **What follows a backslash is read exactly if it makes the backslash the text of a character.** -/
theorem escape_eq_ok_iff {n : Nat} {d : Char} {cs rest : List Char} :
    (∃ m h, escape n cs = .ok (d, m, ⟨rest, h⟩)) ↔
      ∃ es, CharText ('\\' :: es) d ∧ cs = es ++ rest := by
  constructor
  · rintro ⟨m, h, he⟩
    cases cs with
    | nil => cases he
    | cons c cs =>
      rw [escape] at he
      by_cases hc : c = 'u'
      · subst hc
        rw [if_pos rfl] at he
        split at he
        · cases he
        · rename_i c m' left shorter hu
          cases he
          obtain ⟨us, hus, rfl⟩ := unicodeEscape_eq_ok_iff.mp ⟨_, shorter, hu⟩
          exact ⟨'u' :: us, .units hus, rfl⟩
      · rw [if_neg hc] at he
        split at he
        · rename_i c hletter
          cases he
          exact ⟨[_], .letter (simpleEscape?_eq_some_iff.mp hletter), rfl⟩
        · cases he
  · rintro ⟨es, h, rfl⟩
    cases h with
    | plain _ hbackslash _ => exact absurd rfl hbackslash
    | @letter l _ hl =>
      have hu : l ≠ 'u' := by
        rintro rfl
        revert hl
        simp [letterEscapes]
      refine ⟨n + 1, length_lt_cons l rest, ?_⟩
      show escape n (l :: rest) = _
      rw [escape, if_neg hu]
      simp only [simpleEscape?_eq_some_iff.mpr hl]
    | units hus =>
      obtain ⟨us, heq⟩ := hus.exists_of_utf16
      cases heq
      obtain ⟨m, h, hu⟩ := unicodeEscape_eq_ok_iff (n := n + 1).mpr ⟨us, hus, rfl⟩
      refine ⟨m, length_lt_cons_of_lt 'u' h, ?_⟩
      show escape n ('u' :: (us ++ rest)) = _
      rw [escape, if_pos rfl]
      simp only [hu]

/-! ### Literals -/

theorem UnitText.scanned_append_iff {us cs : List Char} {m : Nat} (h : UnitText us m) :
    Scanned false (us ++ cs) ↔ Scanned false cs := by
  cases h with
  | mk hi hj hk hl =>
    have hescape : ∀ ds, Scanned false ('\\' :: 'u' :: ds) ↔ Scanned false ds := fun ds =>
      ⟨fun h => h.2.2, fun h => ⟨by decide, by decide, h⟩⟩
    rw [List.cons_append, List.cons_append, hescape, List.cons_append, hi.scanned_cons_iff,
      List.cons_append, hj.scanned_cons_iff, List.cons_append, hk.scanned_cons_iff, List.cons_append,
      hl.scanned_cons_iff, List.nil_append]

/-- A character of a string neither ends a literal nor hides what follows. -/
theorem CharText.scanned_append_iff {cs ds : List Char} {c : Char} (h : CharText cs c) :
    Scanned false (cs ++ ds) ↔ Scanned false ds := by
  cases h with
  | plain hquote hbackslash hcontrol =>
    rw [List.singleton_append, Scanned, decide_eq_false hbackslash]
    exact ⟨fun h => h.2.2, fun h => ⟨hquote, hcontrol, h⟩⟩
  | letter hl => exact ⟨fun h => h.2.2, fun h => ⟨by decide, by decide, h⟩⟩
  | units hus =>
    generalize utf16 c = units at hus
    induction hus with
    | nil => exact Iff.rfl
    | cons hu _ ih => rw [List.append_assoc, hu.scanned_append_iff, ih]

theorem sequence_of_decode {n : Nat} {body s : List Char} (h : decode n body = .ok s)
    (hbody : Scanned false body) : Sequence CharText body s := by
  fun_induction decode n body generalizing s with
  | case1 n =>
    cases h
    exact .nil
  | case2 n cs e he => cases h
  | case3 n cs d m rest shorter he ih =>
    obtain ⟨t, ht, rfl⟩ := map_eq_ok_iff.mp h
    obtain ⟨es, hes, rfl⟩ := escape_eq_ok_iff.mp ⟨m, shorter, he⟩
    exact .cons hes (ih ht (hes.scanned_append_iff.mp hbody))
  | case4 n c cs hc ih =>
    obtain ⟨t, ht, rfl⟩ := map_eq_ok_iff.mp h
    obtain ⟨hquote, hcontrol, hcs⟩ := hbody
    rw [decide_eq_false hc] at hcs
    exact .cons (.plain hquote hc hcontrol) (ih ht hcs)

theorem decode_of_sequence {body s : List Char} (h : Sequence CharText body s) (n : Nat) :
    decode n body = .ok s := by
  induction h generalizing n with
  | nil => rw [decode]
  | @cons cs ds c s hc _ ih =>
    -- an escape of either kind is left to `escape_eq_ok_iff`
    by_cases hplain : ∃ es, cs = '\\' :: es
    · obtain ⟨es, rfl⟩ := hplain
      obtain ⟨m, h, he⟩ := escape_eq_ok_iff (n := n + 1).mpr ⟨es, hc, (rfl : es ++ ds = _)⟩
      rw [List.cons_append, decode, if_pos rfl]
      simp only [he, ih m]
      rfl
    · cases hc with
      | plain hquote hbackslash hcontrol =>
        rw [List.singleton_append, decode, if_neg hbackslash, ih]
        rfl
      | letter hl => exact absurd ⟨_, rfl⟩ hplain
      | units hus =>
        obtain ⟨us, rfl⟩ := hus.exists_of_utf16
        exact absurd ⟨_, rfl⟩ hplain

/-- **What the scan leaves to the decoding is decoded exactly if it is a sequence of characters.** -/
theorem decode_eq_ok_iff {n : Nat} {body s : List Char} :
    decode n body = .ok s ∧ Scanned false body ↔ Sequence CharText body s := by
  constructor
  · rintro ⟨h, hbody⟩
    exact sequence_of_decode h hbody
  · intro h
    refine ⟨decode_of_sequence h n, ?_⟩
    induction h with
    | nil => rfl
    | cons hc _ ih => exact hc.scanned_append_iff.mpr ih

end ApiLint.Json.Grammar
