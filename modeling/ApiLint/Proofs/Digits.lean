import ApiLint.Proofs.Json.Grammar

/-!
# Decimal digits

A number has one form in decimal digits that does not start with a zero, unless it is that zero alone
(`eq_toDigits_iff`).  All other digits that denote the number are this form with zeros in front
(`exists_eq_replicate_zero_append`).
-/

namespace ApiLint

open Json.Grammar (Digits)

theorem digitsValue_eq_ofDigitChars (ds : List Char) : digitsValue ds = Nat.ofDigitChars 10 ds 0 := by
  rw [Nat.ofDigitChars_eq_foldl]
  simp only [digitsValue, digitValue, Nat.mul_comm]

theorem digitsValue_toDigits (n : Nat) : digitsValue (Nat.toDigits 10 n) = n := by
  rw [digitsValue_eq_ofDigitChars, Nat.ofDigitChars_ten_toDigits]

theorem digits_toDigits (n : Nat) : Digits (Nat.toDigits 10 n) :=
  ⟨Nat.toDigits_ne_nil, fun _ => Nat.isDigit_of_mem_toDigits (by decide) (by decide)⟩

/-- Written in digits, no number but zero starts with a zero. -/
theorem toDigits_of_head?_zero {n : Nat} (h : (Nat.toDigits 10 n).head? = some '0') : Nat.toDigits 10 n = ['0'] := by
  by_cases hn : n < 10
  · rw [Nat.toDigits_of_lt_base hn] at h ⊢
    exact congrArg (fun c => [c]) (Option.some.inj h)
  · rw [Nat.toDigits_of_base_le (by decide) (by omega), List.head?_append_of_ne_nil _ Nat.toDigits_ne_nil] at h
    have hzero := toDigits_of_head?_zero h
    have hvalue := digitsValue_toDigits (n / 10)
    rw [hzero] at hvalue
    have : digitsValue ['0'] = 0 := rfl
    omega

/-! ### Zeros in front -/

theorem digitValue_lt {d : Char} (h : d.isDigit = true) : digitValue d < 10 := by
  obtain ⟨-, hhigh⟩ := Char.isDigit_iff_toNat.mp h
  have : '0'.toNat = 48 := rfl
  have : '9'.toNat = 57 := rfl
  rw [digitValue]
  omega

theorem toDigits_digitValue {d : Char} (h : d.isDigit = true) : Nat.toDigits 10 (digitValue d) = [d] := by
  obtain ⟨hlow, -⟩ := Char.isDigit_iff_toNat.mp h
  have hlt := digitValue_lt h
  rw [Nat.toDigits_of_lt_base hlt]
  refine congrArg (fun c => [c]) (Char.toNat_inj.mp ?_)
  have : '0'.toNat = 48 := rfl
  rw [Nat.toNat_digitChar_of_lt_ten hlt, digitValue]
  omega

theorem digitsValue_concat (ds : List Char) (d : Char) :
    digitsValue (ds ++ [d]) = digitsValue ds * 10 + digitValue d := by
  rw [digitsValue, List.foldl_append]
  rfl

theorem digitsValue_zeros_append (zeros : Nat) (ds : List Char) :
    digitsValue (List.replicate zeros '0' ++ ds) = digitsValue ds := by
  rw [digitsValue_eq_ofDigitChars, Nat.ofDigitChars_append, Nat.ofDigitChars_replicate_zero, Nat.mul_zero,
    ← digitsValue_eq_ofDigitChars]

theorem digits_zeros_append (zeros : Nat) {ds : List Char} (h : Digits ds) :
    Digits (List.replicate zeros '0' ++ ds) := by
  refine ⟨List.append_ne_nil_of_right_ne_nil _ h.1, fun d hd => ?_⟩
  rcases List.mem_append.mp hd with hd | hd
  · rw [List.eq_of_mem_replicate hd]
    rfl
  · exact h.2 d hd

/-- **Digits are zeros in front of the digits of the number that they denote.** -/
theorem exists_eq_replicate_zero_append {ds : List Char} (h : Digits ds) :
    ∃ zeros, ds = List.replicate zeros '0' ++ Nat.toDigits 10 (digitsValue ds) := by
  obtain ⟨hne, hdigits⟩ := h
  induction ds using List.reverseRecOn with
  | nil => exact absurd rfl hne
  | append_singleton ds d ih =>
    have hd : d.isDigit = true := hdigits d (List.mem_append_right _ (List.mem_singleton_self d))
    rw [digitsValue_concat]
    by_cases hds : ds = []
    · subst hds
      refine ⟨0, ?_⟩
      rw [show digitsValue [] = 0 from rfl, Nat.zero_mul, Nat.zero_add, toDigits_digitValue hd]
      rfl
    · obtain ⟨zeros, heq⟩ := ih hds fun c hc => hdigits c (List.mem_append_left _ hc)
      by_cases hzero : digitsValue ds = 0
      · -- the digits in front are zeros too
        rw [hzero] at heq ⊢
        refine ⟨zeros + 1, ?_⟩
        rw [Nat.zero_mul, Nat.zero_add, toDigits_digitValue hd, List.replicate_succ', heq]
        rfl
      · have hlt := digitValue_lt hd
        refine ⟨zeros, ?_⟩
        rw [Nat.toDigits_of_base_le (by decide) (by omega), show (digitsValue ds * 10 + digitValue d) / 10
          = digitsValue ds by omega, show (digitsValue ds * 10 + digitValue d) % 10 = digitValue d by omega,
          ← List.append_assoc, ← heq, ← Nat.toDigits_of_lt_base hlt, toDigits_digitValue hd]

/-- **Digits without a zero in front are the digits of the number that they denote.** -/
theorem eq_toDigits_iff {ds : List Char} {n : Nat} :
    ds = Nat.toDigits 10 n ↔ Digits ds ∧ (ds.head? = some '0' → ds = ['0']) ∧ digitsValue ds = n := by
  constructor
  · rintro rfl
    exact ⟨digits_toDigits n, toDigits_of_head?_zero, digitsValue_toDigits n⟩
  · rintro ⟨hdigits, hzero, rfl⟩
    obtain ⟨zeros, heq⟩ := exists_eq_replicate_zero_append hdigits
    cases zeros with
    | zero => exact heq
    | succ zeros =>
      -- with a zero in front they would be this zero alone, and then nothing stands behind it
      have hhead : ds.head? = some '0' := by
        rw [heq]
        rfl
      have hlength := congrArg List.length heq
      rw [hzero hhead, List.length_append, List.length_replicate, List.length_singleton] at hlength
      have := List.length_pos_of_ne_nil (Nat.toDigits_ne_nil (n := digitsValue ['0']) (b := 10))
      omega

end ApiLint
