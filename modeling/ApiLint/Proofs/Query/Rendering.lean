import ApiLint.Proofs.Query.Filters
import ApiLint.Proofs.Query.Steps
import ApiLint.Proofs.Query.Writing

/-!
# What is written is read back

The reader of queries inverts `Style.render` (`Query.read_render`).  Filters are the main part of it.  What an operand is
followed by decides where it ends, so the readers are asked about an operand in front of a text that starts with an
operator or a closing parenthesis (`Reader.StartsWith`).

For each of the four strengths that a place may need there is a reader, and `Style.Readable` says that each of them reads
an expression that is written for its place.  An alternative or a conjunction groups to the left, so its reader does not
stop behind the operands that it has read but goes on with what is left, and the statement about it is one about going on
from the whole expression.  If one reader reads an expression, written for the place it stands in, then so do those for
looser places, and in parentheses the tightest again (`Style.comparison_of_unary` and so on); the induction over the
expression proves for each constructor what is said of its own reader.
-/

namespace ApiLint.Query

open Json.Grammar (Stops)
open Reader

namespace Reader

/-! ### What an operand ends at -/

/-- But for blanks in front, the text starts with one of the marks. -/
def StartsWith (marks rest : List Char) : Prop :=
  ∃ c ∈ marks, (skipBlanks rest).head? = some c

/-- What may follow an operand: a closing parenthesis or an operator. -/
def operandEnds : List Char := ")|&=!<>".toList

def comparisonEnds : List Char := ")|&".toList

def conjunctionEnds : List Char := ")|".toList

theorem StartsWith.mono {marks marks' rest : List Char} (h : StartsWith marks rest) (hsub : marks ⊆ marks') :
    StartsWith marks' rest := by
  obtain ⟨c, hc, hhead⟩ := h
  exact ⟨c, hsub hc, hhead⟩

theorem StartsWith.of_skipBlanks {marks rest rest' : List Char} (h : StartsWith marks rest)
    (heq : skipBlanks rest' = skipBlanks rest) : StartsWith marks rest' := by
  obtain ⟨c, hc, hhead⟩ := h
  exact ⟨c, hc, heq ▸ hhead⟩

/-- What neither a blank nor a mark continues stops in front of a mark. -/
theorem StartsWith.stops {marks rest : List Char} (h : StartsWith marks rest) {p : Char → Bool}
    (hblank : ∀ c, isBlank c = true → p c = false) (hmarks : marks.any p = false) : Stops p rest := by
  obtain ⟨c, hc, hhead⟩ := h
  intro d hd
  by_cases hb : isBlank d = true
  · exact hblank d hb
  · obtain ⟨ds, rfl⟩ : ∃ ds, rest = d :: ds := List.head?_eq_some_iff.mp hd
    rw [skipBlanks_cons (Bool.eq_false_iff.mpr hb)] at hhead
    rw [Option.some.inj hhead]
    exact Bool.eq_false_iff.mpr (List.any_eq_false.mp hmarks c hc)

theorem isDigit_of_isBlank {c : Char} (h : isBlank c = true) : c.isDigit = false := by
  rw [Bool.eq_false_iff]
  intro hc
  rw [isBlank_of_isAlphanum (by rw [Char.isAlphanum, hc, Bool.or_true])] at h
  cases h

theorem isNumeralChar_of_isBlank {c : Char} (h : isBlank c = true) : isNumeralChar c = false := by
  rw [Bool.eq_false_iff]
  intro hc
  simp only [isNumeralChar, isDigit_of_isBlank h, Bool.false_or, Bool.or_eq_true, decide_eq_true_eq] at hc
  rcases hc with (((rfl | rfl) | rfl) | rfl) | rfl <;> exact absurd h (by decide)

theorem StartsWith.stops_number {rest : List Char} (h : StartsWith operandEnds rest) : Stops isNumeralChar rest :=
  h.stops (fun _ => isNumeralChar_of_isBlank) (by decide)

theorem StartsWith.stops_word {rest : List Char} (h : StartsWith operandEnds rest) :
    Stops (fun c => isAlphanumeric c || c = '_') rest := by
  refine h.stops (fun c hc => ?_) (by decide)
  have hne : c ≠ '_' := by
    rintro rfl
    exact absurd hc (by decide)
  rw [isAlphanumeric_of_isBlank hc, decide_eq_false hne]
  rfl

theorem StartsWith.stops_accessors {rest : List Char} (h : StartsWith operandEnds rest) :
    Stops (fun c => c = '.' || c = '[') rest := by
  refine h.stops (fun c hc => ?_) (by decide)
  rw [Bool.eq_false_iff]
  intro hmark
  rw [Bool.or_eq_true, decide_eq_true_eq, decide_eq_true_eq] at hmark
  rcases hmark with rfl | rfl <;> exact absurd hc (by decide)

/-! ### Operators -/

theorem after?_of_startsWith {marks rest : List Char} (h : StartsWith marks rest) {c : Char} (hc : c ∉ marks)
    (w : List Char) : after? (c :: w) (skipBlanks rest) = none := by
  obtain ⟨d, hd, hhead⟩ := h
  refine after?_eq_none ?_
  rw [hhead]
  rintro heq
  rw [Option.some.inj heq] at hd
  exact hc hd

theorem comparison?_of_startsWith {rest : List Char} (h : StartsWith comparisonEnds rest) :
    comparison? Comparison.all (skipBlanks rest) = none := by
  have hall : ∀ ops : List Comparison, comparison? ops (skipBlanks rest) = none := by
    intro ops
    induction ops with
    | nil => rfl
    | cons op ops ih =>
      have hnone : after? op.symbol (skipBlanks rest) = none := by
        cases op <;> exact after?_of_startsWith h (by decide) _
      rw [comparison?, hnone]
      exact ih
  exact hall _

end Reader

namespace Style

variable (w : Style)

/-! ### Tokens -/

theorem skipBlanks_token {c : Char} (hc : isBlank c = false) (cs rest : List Char) :
    skipBlanks (w.token (c :: cs) ++ rest) = c :: cs ++ rest := by
  rw [token, List.append_assoc, skipBlanks_append w.isBlank_gap]
  exact skipBlanks_cons hc _

theorem startsWith_token {marks : List Char} {c : Char} (hmark : c ∈ marks) (hc : isBlank c = false)
    (cs rest : List Char) : StartsWith marks (w.token (c :: cs) ++ rest) :=
  ⟨c, hmark, by rw [w.skipBlanks_token hc]; rfl⟩

/-- The first character is a blank or that of the token. -/
theorem head?_token_ne {c d : Char} (hd : isBlank d = false) (hc : c ≠ d) (cs rest : List Char) :
    (w.token (c :: cs) ++ rest).head? ≠ some d := by
  rw [token]
  cases hgap : w.gap with
  | nil => simpa using hc
  | cons b gap =>
    have hb : isBlank b = true := w.isBlank_gap b (hgap ▸ List.mem_cons_self ..)
    rintro heq
    rw [Option.some.inj heq, hd] at hb
    cases hb

theorem stops_digit_token {c : Char} (hc : isBlank c = false) (hdigit : c.isDigit = false) (cs rest : List Char) :
    Stops Char.isDigit (w.token (c :: cs) ++ rest) :=
  (w.startsWith_token (List.mem_singleton_self c) hc cs rest).stops (fun _ => isDigit_of_isBlank) <| by
    simp [hdigit]

theorem isBlank_quote : isBlank w.quote = false :=
  isBlank_of_isQuote w.isQuote_quote

/-! ### Accessors -/

theorem reads_accessor {a : Accessor} (h : a.IsWritable) (rest : List Char) :
    ∃ cs, w.accessor a ++ rest = '[' :: cs ∧ Reads (Reader.accessor '[' cs) a rest := by
  have hclose : skipBlanks (w.token [']'] ++ rest) = ']' :: rest := w.skipBlanks_token (by decide) [] rest
  cases a with
  | key k =>
    have hread : Reads (quoted (w.text k ++ (w.token [']'] ++ rest))) k (w.token [']'] ++ rest) :=
      reads_quoted w.isQuote_quote k _
    refine ⟨w.token (w.text k) ++ (w.token [']'] ++ rest), by simp [accessor], reads_accessor_bracket ?_ hclose⟩
    rw [text, quotedText, w.skipBlanks_token w.isBlank_quote]
    exact reads_bracketed_key w.isQuote_quote hread
  | index i =>
    have hread : Reads (integer (wholeText i ++ (w.token [']'] ++ rest))) i (w.token [']'] ++ rest) :=
      reads_integer h.1 h.2 (w.stops_digit_token (by decide) (by decide) [] rest)
    refine ⟨w.token (wholeText i) ++ (w.token [']'] ++ rest), by simp [accessor], reads_accessor_bracket ?_ hclose⟩
    obtain ⟨c, cs, heq, hc⟩ := exists_wholeText i
    rw [heq, w.skipBlanks_token (isBlank_of_startsNumber hc)]
    rw [heq] at hread
    exact reads_bracketed_index hc hread

theorem reads_accessors {as : List Accessor} (h : ∀ a ∈ as, a.IsWritable) {rest : List Char}
    (hrest : Stops (fun c => c = '.' || c = '[') rest) : Reads (accessors (as.flatMap w.accessor ++ rest)) as rest := by
  induction as with
  | nil => exact reads_accessors_end hrest
  | cons a as ih =>
    obtain ⟨cs, heq, haccessor⟩ := w.reads_accessor (h a (List.mem_cons_self ..)) (as.flatMap w.accessor ++ rest)
    rw [List.flatMap_cons, List.append_assoc, heq]
    exact reads_accessors_cons haccessor (ih fun a ha => h a (List.mem_cons_of_mem _ ha))

/-! ### Operands -/

variable {w} in
theorem operand_of_le {e : Expr} {needed : Nat} (h : needed ≤ e.strength) : w.operand needed e = w.expr e :=
  if_neg (Nat.not_lt.mpr h)

variable {w} in
theorem operand_of_lt {e : Expr} {needed : Nat} (h : e.strength < needed) :
    w.operand needed e = w.token ['('] ++ (w.expr e ++ w.token [')']) :=
  if_pos h

/-- The text of a literal, and its first character. -/
theorem exists_literal {l : Literal} (h : l.IsWritable) :
    ∃ c cs, w.literal l = c :: cs ∧ isBlank c = false ∧ c ≠ '!' ∧ c ≠ '=' := by
  cases l with
  | undefined => exact ⟨_, _, rfl, by decide, by decide, by decide⟩
  | null => exact ⟨_, _, rfl, by decide, by decide, by decide⟩
  | bool b => cases b <;> exact ⟨_, _, rfl, by decide, by decide, by decide⟩
  | string s =>
    refine ⟨w.quote, _, rfl, w.isBlank_quote, ?_, ?_⟩ <;> intro hc <;>
      exact absurd (hc ▸ w.isQuote_quote) (by decide)
  | number n =>
    cases n with
    | int i =>
      obtain ⟨c, cs, heq, hc⟩ := exists_wholeText i
      refine ⟨c, cs, heq, isBlank_of_startsNumber hc, ?_, ?_⟩ <;> rintro rfl <;> exact absurd hc (by decide)
    | real => exact h.elim

theorem reads_literal {l : Literal} (h : l.IsWritable) {c : Char} {cs : List Char} (hl : w.literal l = c :: cs)
    {rest : List Char} (hrest : StartsWith operandEnds rest) : Reads (primary c (cs ++ rest)) (.literal l) rest := by
  cases l with
  | undefined =>
    cases hl
    exact reads_primary_constant (by decide) hrest.stops_word
  | null =>
    cases hl
    exact reads_primary_constant (by decide) hrest.stops_word
  | bool b =>
    cases b <;> cases hl <;> exact reads_primary_constant (by decide) hrest.stops_word
  | string s =>
    have hread := reads_quoted w.isQuote_quote s rest
    cases hl
    exact reads_primary_string w.isQuote_quote hread
  | number n =>
    cases n with
    | int i =>
      obtain ⟨d, ds, heq, hd⟩ := exists_wholeText i
      have hread := reads_number h.1 h.2 hrest.stops_number
      rw [heq] at hread
      cases heq.symm.trans hl
      exact reads_primary_number hd hread
    | real => exact h.elim

/-- What is written for the tightest place starts with a character that no operator goes on with. -/
theorem exists_operand {e : Expr} (h : e.IsWritable) : ∃ c cs, w.operand 3 e = w.token (c :: cs) ∧ c ≠ '=' := by
  by_cases hstrength : e.strength < 3
  · rw [operand_of_lt hstrength, token, List.append_assoc]
    exact ⟨'(', _, rfl, by decide⟩
  · rw [operand_of_le (Nat.not_lt.mp hstrength)]
    cases e with
    | current accessors => exact ⟨'@', _, rfl, by decide⟩
    | property => exact ⟨'@', _, rfl, by decide⟩
    | not e =>
      rw [expr, token, List.append_assoc]
      exact ⟨'!', _, rfl, by decide⟩
    | literal l =>
      obtain ⟨c, cs, heq, -, -, hc⟩ := w.exists_literal (l := l) h
      exact ⟨c, cs, by rw [expr, heq], hc⟩
    | and | or | compare => exact absurd (by simp [Expr.strength]) hstrength

/-- What follows an operator is not taken for a part of it. -/
theorem head?_operand_ne {e : Expr} (h : e.IsWritable) (rest : List Char) :
    (w.operand 3 e ++ rest).head? ≠ some '=' := by
  obtain ⟨c, cs, heq, hc⟩ := w.exists_operand h
  rw [heq]
  exact w.head?_token_ne (by decide) hc cs rest

/-! ### Expressions for their places -/

/-- The tightest reader reads the expression, written for a place as tight. -/
def ReadsUnary (e : Expr) : Prop :=
  ∀ rest, StartsWith operandEnds rest → Leaves (unary (w.operand 3 e ++ rest)) e rest

def ReadsComparison (e : Expr) : Prop :=
  ∀ rest, StartsWith comparisonEnds rest → Leaves (comparison (w.operand 2 e ++ rest)) e rest

/-- The reader of conjunctions reads the expression and goes on with what is left. -/
def ReadsAnd (e : Expr) : Prop :=
  ∀ rest x l, StartsWith comparisonEnds rest →
    (∀ rest', skipBlanks rest' = skipBlanks rest → Leaves (andRest e rest') x l) →
    Leaves (andExpr (w.operand 1 e ++ rest)) x l

def ReadsOr (e : Expr) : Prop :=
  ∀ rest x l, StartsWith conjunctionEnds rest →
    (∀ rest', skipBlanks rest' = skipBlanks rest → Leaves (orRest e rest') x l) →
    Leaves (orExpr (w.operand 0 e ++ rest)) x l

structure Readable (e : Expr) : Prop where
  unary : w.ReadsUnary e
  comparison : w.ReadsComparison e
  and : w.ReadsAnd e
  or : w.ReadsOr e

variable {w} {e f : Expr}

theorem operand_succ {needed : Nat} (h : e.strength ≠ needed) : w.operand needed e = w.operand (needed + 1) e := by
  rcases Nat.lt_or_gt_of_ne h with hlt | hgt
  · rw [operand_of_lt hlt, operand_of_lt (Nat.lt_succ_of_lt hlt)]
  · rw [operand_of_le (Nat.le_of_lt hgt), operand_of_le hgt]

theorem comparison_of_unary (h : w.ReadsUnary e) (he : e.strength ≠ 2) : w.ReadsComparison e := by
  intro rest hrest
  rw [operand_succ he]
  refine leaves_comparison_operand (h rest (hrest.mono (by decide))) ?_
  exact comparison?_of_startsWith hrest

theorem and_of_comparison (h : w.ReadsComparison e) (he : e.strength ≠ 1) : w.ReadsAnd e := by
  intro rest x l hrest hgo
  rw [operand_succ he]
  exact Junction.leaves_operands (j := .and) (h rest hrest) hgo

/-- In front of a closing parenthesis or an alternative the reader of conjunctions stops. -/
theorem leaves_andExpr_end {rest : List Char} (h : w.ReadsAnd e) (hrest : StartsWith conjunctionEnds rest) :
    Leaves (andExpr (w.operand 1 e ++ rest)) e rest := by
  refine h rest e rest (hrest.mono (by decide)) fun rest' heq => ?_
  exact (Junction.leaves_more_stop (j := .and) (after?_of_startsWith (hrest.of_skipBlanks heq) (by decide) _)).congr heq

theorem or_of_and (h : w.ReadsAnd e) (he : e.strength ≠ 0) : w.ReadsOr e := by
  intro rest x l hrest hgo
  rw [operand_succ he]
  exact Junction.leaves_operands (j := .or) (leaves_andExpr_end h hrest) hgo

/-- In front of a closing parenthesis the loosest reader stops. -/
theorem leaves_orExpr_close (h : w.ReadsOr e) (rest : List Char) :
    Leaves (orExpr (w.expr e ++ (w.token [')'] ++ rest))) e (w.token [')'] ++ rest) := by
  have hclose : StartsWith [')'] (w.token [')'] ++ rest) :=
    w.startsWith_token (List.mem_singleton_self _) (by decide) [] rest
  rw [← operand_of_le (Nat.zero_le e.strength)]
  refine h _ e _ (hclose.mono (by decide)) fun rest' heq => (Junction.leaves_more_stop (j := .or) ?_).congr heq
  exact after?_of_startsWith (hclose.of_skipBlanks heq) (by decide) _

/-- In parentheses, the tightest reader reads what the loosest does. -/
theorem unary_of_or (h : w.ReadsOr e) (he : e.strength < 3) : w.ReadsUnary e := by
  intro rest _
  rw [operand_of_lt he, List.append_assoc, List.append_assoc]
  refine leaves_unary_primary (w.skipBlanks_token (by decide) [] _) (by decide) ?_
  exact leaves_primary_parentheses (leaves_orExpr_close h rest) (w.skipBlanks_token (by decide) [] rest)

theorem readable_of_unary (h : w.ReadsUnary e) (he : e.strength = 3) : w.Readable e := by
  have hcomparison := comparison_of_unary h (by omega)
  have hand := and_of_comparison hcomparison (by omega)
  exact ⟨h, hcomparison, hand, or_of_and hand (by omega)⟩

theorem readable_of_comparison (h : w.ReadsComparison e) (he : e.strength = 2) : w.Readable e := by
  have hand := and_of_comparison h (by omega)
  have hor := or_of_and hand (by omega)
  exact ⟨unary_of_or hor (by omega), h, hand, hor⟩

theorem readable_of_and (h : w.ReadsAnd e) (he : e.strength = 1) : w.Readable e := by
  have hor := or_of_and h (by omega)
  have hunary := unary_of_or hor (by omega)
  exact ⟨hunary, comparison_of_unary hunary (by omega), h, hor⟩

theorem readable_of_or (h : w.ReadsOr e) (he : e.strength = 0) : w.Readable e := by
  have hunary := unary_of_or h (by omega)
  have hcomparison := comparison_of_unary hunary (by omega)
  exact ⟨hunary, hcomparison, and_of_comparison hcomparison (by omega), h⟩

/-! ### One constructor after another -/

theorem readsUnary_atom {c : Char} {cs : List Char} (he : w.expr e = w.token (c :: cs)) (hstrength : e.strength = 3)
    (hblank : isBlank c = false) (hc : c ≠ '!')
    (h : ∀ rest, StartsWith operandEnds rest → Reads (primary c (cs ++ rest)) e rest) : w.ReadsUnary e := by
  intro rest hrest
  rw [operand_of_le (by omega), he]
  exact leaves_unary_primary (w.skipBlanks_token hblank cs rest) hc (h rest hrest)

theorem readsUnary_current {as : List Accessor} (h : ∀ a ∈ as, a.IsWritable) : w.ReadsUnary (.current as) := by
  refine readsUnary_atom (by rw [expr]) rfl (by decide) (by decide) fun rest hrest => ?_
  refine reads_primary_current (afterWord?_eq_none (c := 'p') ?_) (w.reads_accessors h hrest.stops_accessors)
  cases as with
  | nil =>
    intro hhead
    exact absurd (hrest.stops_word _ hhead) (by decide)
  | cons a as => cases a <;> simp [accessor]

theorem readsUnary_property : w.ReadsUnary .property :=
  readsUnary_atom (by rw [expr]) rfl (by decide) (by decide) fun _ hrest =>
    reads_primary_property (afterWord?_append hrest.stops_word)

theorem readsUnary_literal {l : Literal} (h : l.IsWritable) : w.ReadsUnary (.literal l) := by
  obtain ⟨c, cs, heq, hblank, hc, -⟩ := w.exists_literal h
  exact readsUnary_atom (by rw [expr, heq]) rfl hblank hc fun _ hrest => w.reads_literal h heq hrest

theorem readsUnary_not (h : e.IsWritable) (hunary : w.ReadsUnary e) : w.ReadsUnary (.not e) := by
  intro rest hrest
  rw [operand_of_le (Nat.le_refl 3), expr, List.append_assoc]
  exact leaves_unary_not (w.skipBlanks_token (by decide) [] _) (w.head?_operand_ne h rest) (hunary rest hrest)

theorem readsComparison_compare (op : Comparison) (hf : f.IsWritable) (hunary : w.ReadsUnary e)
    (hunary' : w.ReadsUnary f) : w.ReadsComparison (.compare op e f) := by
  intro rest hrest
  have hsymbol : ∃ c cs, op.symbol = c :: cs ∧ isBlank c = false ∧ c ∈ operandEnds := by
    cases op <;> exact ⟨_, _, rfl, by decide, by decide⟩
  obtain ⟨c, cs, heq, hblank, hmark⟩ := hsymbol
  rw [operand_of_le (Nat.le_refl 2), expr, List.append_assoc, List.append_assoc]
  refine leaves_comparison_compare (hunary _ ?_) ?_ (hunary' rest (hrest.mono (by decide)))
  · rw [heq]
    exact w.startsWith_token hmark hblank cs _
  · rw [heq, w.skipBlanks_token hblank, ← heq]
    exact comparison?_symbol op (w.head?_operand_ne hf rest)

theorem readsAnd_and (he : w.ReadsAnd e) (hf : w.ReadsComparison f) : w.ReadsAnd (.and e f) := by
  intro rest x l hrest hgo
  have hskip : skipBlanks (w.token "&&".toList ++ (w.operand 2 f ++ rest)) = "&&".toList ++ (w.operand 2 f ++ rest) :=
    w.skipBlanks_token (by decide) ['&'] _
  rw [operand_of_le (Nat.le_refl 1), expr, List.append_assoc, List.append_assoc]
  -- having read `e`, the reader goes on with `f`, and from `e && f` with what follows
  refine he _ x l (w.startsWith_token (c := '&') (by decide) (by decide) ['&'] _) fun rest' heq => ?_
  exact Junction.leaves_more_step (j := .and) (heq.trans hskip) (hf rest hrest) hgo

theorem readsOr_or (he : w.ReadsOr e) (hf : w.ReadsAnd f) : w.ReadsOr (.or e f) := by
  intro rest x l hrest hgo
  have hskip : skipBlanks (w.token "||".toList ++ (w.operand 1 f ++ rest)) = "||".toList ++ (w.operand 1 f ++ rest) :=
    w.skipBlanks_token (by decide) ['|'] _
  rw [operand_of_le (Nat.le_refl 0), expr, List.append_assoc, List.append_assoc]
  refine he _ x l (w.startsWith_token (c := '|') (by decide) (by decide) ['|'] _) fun rest' heq => ?_
  exact Junction.leaves_more_step (j := .or) (heq.trans hskip) (leaves_andExpr_end hf hrest) hgo

/-- **Every reader of expressions reads what is written for its place.** -/
theorem readable (w : Style) {e : Expr} (h : e.IsWritable) : w.Readable e := by
  -- on the expression: every operand is readable for any place, so for the one it stands in
  induction e with
  | current accessors => exact readable_of_unary (readsUnary_current h) rfl
  | property => exact readable_of_unary readsUnary_property rfl
  | literal l => exact readable_of_unary (readsUnary_literal h) rfl
  | not e ih => exact readable_of_unary (readsUnary_not h (ih h).unary) rfl
  | and e f ihe ihf => exact readable_of_and (readsAnd_and (ihe h.1).and (ihf h.2).comparison) rfl
  | or e f ihe ihf => exact readable_of_or (readsOr_or (ihe h.1).or (ihf h.2).and) rfl
  | compare op e f ihe ihf =>
    exact readable_of_comparison (readsComparison_compare op h.2 (ihe h.1).unary (ihf h.2).unary) rfl

/-! ### Unions -/

/-- What stands in a union starts with a character that is no blank and does not open a filter. -/
theorem exists_selector (w : Style) {s : Selector} (h : s.IsPlain) :
    ∃ c cs, w.selector s = w.token (c :: cs) ∧ isBlank c = false ∧ c ≠ '?' := by
  cases s with
  | name k =>
    refine ⟨w.quote, _, rfl, w.isBlank_quote, fun hc => ?_⟩
    exact absurd (hc ▸ w.isQuote_quote) (by decide)
  | index i =>
    obtain ⟨c, cs, heq, hc⟩ := exists_wholeText i
    refine ⟨c, cs, by rw [selector, heq], isBlank_of_startsNumber hc, ?_⟩
    rintro rfl
    exact absurd hc (by decide)
  | wildcard => exact ⟨'*', [], rfl, by decide, by decide⟩
  | filter e => exact h.elim

/-- A union starts with its first selector. -/
theorem exists_selectors (w : Style) (s : Selector) (ss : List Selector) :
    ∃ cs, w.selectors (s :: ss) = w.selector s ++ cs := by
  cases ss with
  | nil => exact ⟨_, rfl⟩
  | cons => exact ⟨_, rfl⟩

theorem reads_selector (w : Style) {s : Selector} (h : s.IsPlain) {rest : List Char}
    (hrest : StartsWith ",]".toList rest) : Reads (Reader.selector (skipBlanks (w.selector s ++ rest))) s rest := by
  cases s with
  | name k =>
    have hread := reads_quoted w.isQuote_quote k rest
    rw [selector, text, quotedText, w.skipBlanks_token w.isBlank_quote]
    exact reads_selector_name w.isQuote_quote hread
  | index i =>
    have hread := reads_integer h.1 h.2 (hrest.stops (fun _ => isDigit_of_isBlank) (by decide))
    obtain ⟨c, cs, heq, hc⟩ := exists_wholeText i
    rw [selector, heq, w.skipBlanks_token (isBlank_of_startsNumber hc)]
    rw [heq] at hread
    exact reads_selector_index hc hread
  | wildcard =>
    rw [selector, w.skipBlanks_token (by decide)]
    exact reads_selector_wildcard rest
  | filter e => exact h.elim

theorem reads_selectors (w : Style) {ss : List Selector} (hne : ss ≠ []) (h : ∀ s ∈ ss, s.IsPlain)
    (rest : List Char) : Reads (Reader.selectors (w.selectors ss ++ rest)) ss rest := by
  induction ss with
  | nil => exact absurd rfl hne
  | cons s ss ih =>
    have hs := h s (List.mem_cons_self ..)
    cases ss with
    | nil =>
      rw [selectors, List.append_assoc]
      refine reads_selectors_last (w.reads_selector hs ?_) (w.skipBlanks_token (by decide) [] rest)
      exact w.startsWith_token (by decide) (by decide) [] rest
    | cons s' ss =>
      have hss := ih (List.cons_ne_nil s' ss) fun s'' hs'' => h s'' (List.mem_cons_of_mem s hs'')
      have heq : w.selectors (s :: s' :: ss) = w.selector s ++ (w.token [','] ++ w.selectors (s' :: ss)) := rfl
      rw [heq, List.append_assoc, List.append_assoc]
      refine reads_selectors_cons (w.reads_selector hs ?_) (w.skipBlanks_token (by decide) [] _) hss
      exact w.startsWith_token (by decide) (by decide) [] _

/-! ### Steps -/

theorem reads_filter_expr (w : Style) {e : Expr} (h : e.IsWritable) (rest : List Char) :
    Reads (Reader.filter (w.token ['('] ++ (w.expr e ++ (w.token [')'] ++ (w.token [']'] ++ rest))))) [.filter e]
      rest := by
  obtain ⟨l, hread, hskip⟩ := leaves_orExpr_close (w.readable h).or (w.token [']'] ++ rest)
  have hclose := hskip.trans (w.skipBlanks_token (by decide) [] _)
  exact reads_filter (w.skipBlanks_token (by decide) [] _) hread hclose (w.skipBlanks_token (by decide) [] rest)

theorem reads_bracket (w : Style) {ss : List Selector} (h : AreWritable ss) (rest : List Char) :
    Reads (bracket (w.selectors ss ++ rest)) ss rest := by
  rcases h with ⟨hne, hplain⟩ | ⟨e, rfl, he⟩
  · obtain ⟨s, ss, rfl⟩ := List.exists_cons_of_ne_nil hne
    obtain ⟨c, cs, heq, hblank, hc⟩ := w.exists_selector (hplain s (List.mem_cons_self ..))
    obtain ⟨ds, hds⟩ := w.exists_selectors s ss
    have hskip : skipBlanks (w.selectors (s :: ss) ++ rest) = c :: cs ++ (ds ++ rest) := by
      rw [hds, heq, List.append_assoc, w.skipBlanks_token hblank]
    exact reads_bracket_selectors hskip hc (w.reads_selectors hne hplain rest)
  · have heq : w.selectors [.filter e] ++ rest =
        w.token ['?'] ++ (w.token ['('] ++ (w.expr e ++ (w.token [')'] ++ (w.token [']'] ++ rest)))) := by
      simp only [selectors, selector, List.append_assoc]
    rw [heq]
    exact reads_bracket_filter (w.skipBlanks_token (by decide) [] _) (w.reads_filter_expr he rest)

theorem reads_step (w : Style) {s : Step} (h : s.IsWritable) (rest : List Char) :
    ∃ c l, skipBlanks (w.step s ++ rest) = c :: l ∧ Reads (Reader.step (c :: l)) s rest := by
  cases s with
  | child ss =>
    exact ⟨'[', _, w.skipBlanks_token (by decide) _ rest, reads_step_bracket (w.reads_bracket h rest)⟩
  | descendant ss =>
    exact ⟨'.', _, w.skipBlanks_token (by decide) _ rest, reads_step_descendant (w.reads_bracket h rest)⟩
  | parent => exact ⟨'^', _, w.skipBlanks_token (by decide) [] rest, reads_step_parent rest⟩

theorem allSteps_flatMap (w : Style) {steps : List Step} (h : ∀ s ∈ steps, s.IsWritable) :
    allSteps (steps.flatMap w.step ++ w.gap) = .ok steps := by
  induction steps with
  | nil => exact allSteps_of_blank (List.dropWhile_eq_nil_iff.mpr w.isBlank_gap)
  | cons s steps ih =>
    obtain ⟨c, l, heq, hread⟩ := w.reads_step (h s (List.mem_cons_self ..)) (steps.flatMap w.step ++ w.gap)
    rw [List.flatMap_cons, List.append_assoc]
    exact allSteps_cons heq hread (ih fun s' hs' => h s' (List.mem_cons_of_mem s hs'))

theorem readChars_render (w : Style) {steps : List Step} (h : ∀ s ∈ steps, s.IsWritable) :
    readChars (w.render steps).toList = .ok steps := by
  rw [render, String.toList_ofList]
  exact readChars_root (w.skipBlanks_token (by decide) [] _) (w.allSteps_flatMap h)

end Style

/-- **The reader inverts writing.**  Steps that can be written are read back from their text, whichever quote it has and
whatever blanks stand between its tokens. -/
theorem read_render (w : Style) {steps : List Step} (h : ∀ s ∈ steps, s.IsWritable) :
    read (w.render steps) = .ok ⟨w.render steps, steps⟩ := by
  rw [read, w.readChars_render h]

/-- A filter in which each strength stands in a place that needs more, and in one that does not. -/
theorem read_render_of_nested :
    let w : Style := ⟨'\'', [], by decide, by simp⟩
    let item : Expr := .current [.key "it's", .index (-1)]
    let small : Expr := .compare .atMost (.literal (.number (.int (-1)))) .property
    let condition : Expr := .and (.or (.not small) (.or .property item))
      (.or (.and item (.and small (.not (.not item)))) (.compare .strictUnequal (.not item) small))
    let steps : List Step := [.child [.name "a\\", .wildcard, .index (-2)], .descendant [.filter condition], .parent]
    (∀ s ∈ steps, s.IsWritable) ∧
      w.render steps = "$['a\\\\',*,-2]..[?((!(-1<=@property)||(@property||@['it\\'s'][-1]))" ++
        "&&(@['it\\'s'][-1]&&(-1<=@property&&!!@['it\\'s'][-1])||!@['it\\'s'][-1]!==(-1<=@property)))]^" ∧
      read (w.render steps) = .ok ⟨w.render steps, steps⟩ := by
  intro w item small condition steps
  have h : ∀ s ∈ steps, s.IsWritable := by
    simp [steps, condition, small, item, Step.IsWritable, AreWritable, Selector.IsPlain, Expr.IsWritable,
      Literal.IsWritable, Accessor.IsWritable, IsIndex, signedLimit, wordLimit]
  exact ⟨h, by decide +kernel, read_render w h⟩

end ApiLint.Query
