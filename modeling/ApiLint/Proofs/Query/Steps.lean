import ApiLint.Proofs.Query.Tokens

/-!
# Reading steps part by part

One lemma for each way in which a reader of steps succeeds: what it comes to, told by what the readers of its parts come
to.  A reader skips the blanks in front of a token, so its input is told by what is left without them.
-/

namespace ApiLint.Query.Reader

open Json.Grammar (Stops)

variable {cs l rest : List Char}

/-! ### Selectors -/

theorem reads_selector_wildcard (rest : List Char) : Reads (selector ('*' :: rest)) .wildcard rest :=
  ⟨length_lt_cons '*' rest, by rw [selector, if_pos rfl]⟩

theorem reads_selector_name {quote : Char} (h : isQuote quote = true) {s : String}
    (hread : Reads (quoted (quote :: cs)) s rest) : Reads (selector (quote :: cs)) (.name s) rest := by
  have hstar : quote ≠ '*' := by
    rintro rfl
    exact absurd h (by decide)
  obtain ⟨hrest, heq⟩ := hread.map Selector.name
  exact ⟨hrest, by rw [selector, if_neg hstar, if_pos h, heq]⟩

theorem reads_selector_index {c : Char} (h : startsNumber c = true) {i : Int}
    (hread : Reads (integer (c :: cs)) i rest) : Reads (selector (c :: cs)) (.index i) rest := by
  have hstar : c ≠ '*' := by
    rintro rfl
    exact absurd h (by decide)
  obtain ⟨hrest, heq⟩ := hread.map Selector.index
  exact ⟨hrest, by rw [selector, if_neg hstar, if_neg (not_isQuote_of_startsNumber h), if_pos h, heq]⟩

theorem reads_selectors_last {s : Selector} (h : Reads (selector (skipBlanks cs)) s l)
    (hl : skipBlanks l = ']' :: rest) : Reads (selectors cs) [s] rest := by
  obtain ⟨hlength, heq⟩ := h
  have hafter : after? [']'] (skipBlanks l) = some rest := by
    rw [hl]
    exact after?_append [']'] rest
  have hrest : rest.length < cs.length := by
    have := length_of_after? hafter
    have := length_skipBlanks_le l
    have := length_skipBlanks_le cs
    omega
  refine ⟨hrest, ?_⟩
  rw [selectors, heq]
  dsimp only
  split
  · next hsome =>
    rw [hafter] at hsome
    cases hsome
    rfl
  · next hnone =>
    rw [hafter] at hnone
    cases hnone

theorem reads_selectors_cons {s : Selector} {ss : List Selector} {l' : List Char}
    (h : Reads (selector (skipBlanks cs)) s l) (hl : skipBlanks l = ',' :: l') (hss : Reads (selectors l') ss rest) :
    Reads (selectors cs) (s :: ss) rest := by
  obtain ⟨hlength, heq⟩ := h
  obtain ⟨hlength', heq'⟩ := reads_expectNext hl
  obtain ⟨hrest, hss⟩ := hss
  have hafter : after? [']'] (skipBlanks l) = none := by
    rw [hl]
    exact after?_eq_none (by simp)
  have hall : rest.length < cs.length := by
    have := length_skipBlanks_le cs
    omega
  refine ⟨hall, ?_⟩
  rw [selectors, heq]
  dsimp only
  split
  · next hsome =>
    rw [hafter] at hsome
    cases hsome
  · rw [heq']
    dsimp only
    rw [hss]

/-! ### Brackets -/

theorem reads_bracket_selectors {c : Char} {ss : List Selector} (hcs : skipBlanks cs = c :: l) (hc : c ≠ '?')
    (h : Reads (selectors cs) ss rest) : Reads (bracket cs) ss rest := by
  obtain ⟨hrest, heq⟩ := h
  refine ⟨hrest, ?_⟩
  rw [bracket]
  split
  · exact heq
  · next hskip =>
    rw [hcs] at hskip
    cases hskip
    rw [if_neg hc, heq]

theorem reads_filter {e : Expr} {l₁ l₂ l₃ : List Char} (hopen : skipBlanks cs = '(' :: l₁)
    (he : Reads (orExpr l₁) e l₂) (hclose : skipBlanks l₂ = ')' :: l₃) (hend : skipBlanks l₃ = ']' :: rest) :
    Reads (filter cs) [.filter e] rest := by
  obtain ⟨hlength₁, heq₁⟩ := reads_expectNext hopen
  obtain ⟨hlength₂, heq₂⟩ := he
  obtain ⟨hlength₃, heq₃⟩ := reads_expectNext hclose
  obtain ⟨hlength₄, heq₄⟩ := reads_expectNext hend
  refine ⟨by omega, ?_⟩
  rw [filter, heq₁]
  dsimp only
  rw [heq₂]
  dsimp only
  rw [heq₃]
  dsimp only
  rw [heq₄]

theorem reads_bracket_filter {ss : List Selector} (hcs : skipBlanks cs = '?' :: l) (h : Reads (filter l) ss rest) :
    Reads (bracket cs) ss rest := by
  obtain ⟨hrest, heq⟩ := h
  have hlength : rest.length < cs.length := by
    have hskip := length_skipBlanks_le cs
    rw [hcs, List.length_cons] at hskip
    omega
  refine ⟨hlength, ?_⟩
  rw [bracket]
  split
  · next hskip =>
    rw [hcs] at hskip
    cases hskip
  · next hskip =>
    rw [hcs] at hskip
    cases hskip
    rw [if_pos rfl, heq]

/-! ### Steps -/

theorem reads_member {c : Char} (hstar : c ≠ '*') (hc : isMemberChar c = true) {name : List Char}
    (hname : ∀ d ∈ name, isMemberChar d = true) (hrest : Stops isMemberChar rest) :
    Reads (member (c :: name ++ rest)) [.name (String.ofList (c :: name))] rest := by
  have hafter : after? ['*'] (c :: name ++ rest) = none := after?_eq_none (by simpa using hstar)
  obtain ⟨hlength, heq⟩ := (reads_run hc hname hrest).map fun s => [Selector.name s]
  exact ⟨hlength, by rw [member, hafter]; exact heq⟩

theorem reads_step_member {ss : List Selector} (hdot : cs.head? ≠ some '.') (h : Reads (member cs) ss rest) :
    Reads (step ('.' :: cs)) (.child ss) rest := by
  obtain ⟨hrest, heq⟩ := h
  refine ⟨Nat.lt_succ_of_lt hrest, ?_⟩
  unfold step
  dsimp only
  rw [if_pos rfl]
  split
  · exact absurd rfl hdot
  · rw [heq]
    rfl

theorem reads_step_bracket {ss : List Selector} (h : Reads (bracket cs) ss rest) :
    Reads (step ('[' :: cs)) (.child ss) rest := by
  obtain ⟨hrest, heq⟩ := h
  refine ⟨Nat.lt_succ_of_lt hrest, ?_⟩
  unfold step
  dsimp only
  rw [if_neg (by decide), if_pos rfl, heq]
  rfl

theorem reads_step_descendant {ss : List Selector} (h : Reads (bracket cs) ss rest) :
    Reads (step ('.' :: '.' :: '[' :: cs)) (.descendant ss) rest := by
  obtain ⟨hrest, heq⟩ := h
  refine ⟨Nat.lt_succ_of_lt (Nat.lt_succ_of_lt (Nat.lt_succ_of_lt hrest)), ?_⟩
  rw [step]
  dsimp only
  rw [if_pos rfl, descendant, heq]
  rfl

theorem reads_step_parent (rest : List Char) : Reads (step ('^' :: rest)) .parent rest := by
  refine ⟨length_lt_cons '^' rest, ?_⟩
  unfold step
  dsimp only
  rw [if_neg (by decide), if_neg (by decide), if_pos rfl]

theorem allSteps_of_blank (h : skipBlanks cs = []) : allSteps cs = .ok [] := by
  rw [allSteps]
  split
  · rfl
  · next hcons =>
    rw [h] at hcons
    cases hcons

theorem allSteps_cons {c : Char} {s : Step} {ss : List Step} (hcs : skipBlanks cs = c :: l)
    (h : Reads (step (c :: l)) s rest) (hrest : allSteps rest = .ok ss) : allSteps cs = .ok (s :: ss) := by
  obtain ⟨hlength, heq⟩ := h
  rw [allSteps]
  split
  · next hnil =>
    rw [hcs] at hnil
    cases hnil
  · next hcons =>
    rw [hcs] at hcons
    cases hcons
    rw [heq]
    dsimp only
    rw [hrest]
    rfl

theorem readChars_root {ss : List Step} (hcs : skipBlanks cs = '$' :: l) (h : allSteps l = .ok ss) :
    readChars cs = .ok ss := by
  rw [readChars, hcs]
  exact (if_pos rfl).trans h

end ApiLint.Query.Reader
