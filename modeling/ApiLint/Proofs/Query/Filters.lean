import ApiLint.Proofs.Query.Tokens

/-!
# Reading filters part by part

One lemma for each way in which a reader of filters succeeds.  The readers of expressions look for an operator behind
what they have read, and leave the text without the blanks that they skipped for that (`Reader.Leaves`).  What they go on
to read depends on the text without those blanks, so a lemma about a reader that goes on asks for what it comes to on
every text that is the same but for blanks in front.
-/

namespace ApiLint.Query.Reader

open Json.Grammar (Stops)

variable {cs l l₁ l₂ rest : List Char} {e f x : Expr}

/-- The reader comes to `a`, and `rest` is left, but for blanks in front. -/
def Leaves {α : Type} {P : List Char → Prop} (r : Except Fault (α × { rest : List Char // P rest })) (a : α)
    (rest : List Char) : Prop :=
  ∃ l, Reads r a l ∧ skipBlanks l = skipBlanks rest

theorem Leaves.congr {α : Type} {P : List Char → Prop} {r : Except Fault (α × { rest : List Char // P rest })} {a : α}
    (h : Leaves r a l) (hl : skipBlanks l = skipBlanks rest) : Leaves r a rest := by
  obtain ⟨l', hread, hskip⟩ := h
  exact ⟨l', hread, hskip.trans hl⟩

theorem length_lt_of_skipBlanks {c : Char} (h : skipBlanks cs = c :: l) : l.length < cs.length := by
  have hskip := length_skipBlanks_le cs
  rw [h, List.length_cons] at hskip
  omega

theorem length_lt_of_after? {c : Char} {w : List Char} (h : after? (c :: w) (skipBlanks cs) = some rest) :
    rest.length < cs.length := by
  have hlength := length_of_after? h
  have hskip := length_skipBlanks_le cs
  rw [List.length_cons] at hlength
  omega

/-! ### Accessors -/

theorem reads_bracketed_key {quote : Char} (h : isQuote quote = true) {k : String}
    (hread : Reads (quoted (quote :: cs)) k rest) : Reads (bracketed (quote :: cs)) (.key k) rest := by
  obtain ⟨hrest, heq⟩ := hread.map Accessor.key
  exact ⟨hrest, by rw [bracketed, if_pos h, heq]⟩

theorem reads_bracketed_index {c : Char} (h : startsNumber c = true) {i : Int}
    (hread : Reads (integer (c :: cs)) i rest) : Reads (bracketed (c :: cs)) (.index i) rest := by
  obtain ⟨hrest, heq⟩ := hread.map Accessor.index
  exact ⟨hrest, by rw [bracketed, if_neg (not_isQuote_of_startsNumber h), heq]⟩

theorem reads_accessor_bracket {a : Accessor} (h : Reads (bracketed (skipBlanks cs)) a l)
    (hl : skipBlanks l = ']' :: rest) : Reads (accessor '[' cs) a rest := by
  obtain ⟨hlength, heq⟩ := h
  obtain ⟨hrest, hend⟩ := reads_expectNext hl
  have hskip := length_skipBlanks_le cs
  refine ⟨by omega, ?_⟩
  rw [accessor, if_neg (by decide), heq]
  dsimp only
  rw [hend]

theorem reads_accessors_cons {a : Accessor} {as : List Accessor} (h : Reads (accessor '[' cs) a l)
    (has : Reads (accessors l) as rest) : Reads (accessors ('[' :: cs)) (a :: as) rest := by
  obtain ⟨hlength, heq⟩ := h
  obtain ⟨hrest, heq'⟩ := has
  refine ⟨by rw [List.length_cons]; omega, ?_⟩
  rw [accessors, if_pos (by decide), heq]
  dsimp only
  rw [heq']

theorem reads_accessors_end (h : Stops (fun c => c = '.' || c = '[') rest) : Reads (accessors rest) [] rest := by
  refine ⟨Nat.le_refl _, ?_⟩
  cases rest with
  | nil => rw [accessors]
  | cons c rest =>
    have hc : ¬ (c = '.' || c = '[') = true := Bool.eq_false_iff.mp (h c rfl)
    rw [accessors, if_neg hc]

/-! ### Operands -/

theorem leaves_primary_parentheses (h : Leaves (orExpr l) e l₁) (hl₁ : skipBlanks l₁ = ')' :: rest) :
    Reads (primary '(' l) e rest := by
  obtain ⟨l₂, ⟨hlength, heq⟩, hskip⟩ := h
  obtain ⟨hrest, hend⟩ := reads_expectNext (hskip.trans hl₁)
  refine ⟨length_lt_cons_of_lt '(' (length_lt_trans hrest hlength), ?_⟩
  rw [primary, if_pos rfl, heq]
  dsimp only
  rw [hend]

theorem reads_primary_property (h : afterWord? propertyWord l = some rest) :
    Reads (primary '@' l) .property rest := by
  refine ⟨length_lt_cons_of_afterWord? '@' h, ?_⟩
  rw [primary, if_neg (by decide), if_pos rfl]
  split
  · next hsome =>
    rw [h] at hsome
    cases hsome
    rfl
  · next hnone =>
    rw [h] at hnone
    cases hnone

theorem reads_primary_current {as : List Accessor} (h : afterWord? propertyWord l = none)
    (has : Reads (accessors l) as rest) : Reads (primary '@' l) (.current as) rest := by
  obtain ⟨hrest, heq⟩ := has
  refine ⟨length_lt_cons_of_le '@' hrest, ?_⟩
  rw [primary, if_neg (by decide), if_pos rfl]
  split
  · next hsome =>
    rw [h] at hsome
    cases hsome
  · rw [heq]

theorem reads_primary_string {quote : Char} (h : isQuote quote = true) {s : String}
    (hread : Reads (quoted (quote :: l)) s rest) : Reads (primary quote l) (.literal (.string s)) rest := by
  have hopen : quote ≠ '(' := by
    rintro rfl
    exact absurd h (by decide)
  have hat : quote ≠ '@' := by
    rintro rfl
    exact absurd h (by decide)
  obtain ⟨hrest, heq⟩ := hread.map fun s => Expr.literal (.string s)
  exact ⟨hrest, by rw [primary, if_neg hopen, if_neg hat, if_pos h, heq]⟩

theorem reads_primary_number {c : Char} (h : startsNumber c = true) {n : Number}
    (hread : Reads (number (c :: l)) n rest) : Reads (primary c l) (.literal (.number n)) rest := by
  have hopen : c ≠ '(' := by
    rintro rfl
    exact absurd h (by decide)
  have hat : c ≠ '@' := by
    rintro rfl
    exact absurd h (by decide)
  obtain ⟨hrest, heq⟩ := hread.map fun n => Expr.literal (.number n)
  exact ⟨hrest, by rw [primary, if_neg hopen, if_neg hat, if_neg (not_isQuote_of_startsNumber h), if_pos h, heq]⟩

/-- Of a list of words, the only one that stands here is read. -/
theorem reads_constant_of_unique {ws : List (List Char × Literal)} {x : List Char × Literal} (hx : x ∈ ws)
    (h : afterWord? x.1 cs = some rest) (hlength : rest.length < cs.length)
    (hothers : ∀ y ∈ ws, y ≠ x → afterWord? y.1 cs = none) : Reads (constant ws cs) x.2 rest := by
  refine ⟨hlength, ?_⟩
  induction ws with
  | nil => exact absurd hx List.not_mem_nil
  | cons y ws ih =>
    rw [constant]
    by_cases hy : y = x
    · rw [hy, h]
      exact dif_pos hlength
    · rw [hothers y (List.mem_cons_self ..) hy]
      have hmem := (List.mem_cons.mp hx).resolve_left (Ne.symm hy)
      exact ih hmem fun z hz => hothers z (List.mem_cons_of_mem y hz)

/-- A constant is told from the others by its first letter. -/
theorem reads_constant {x : List Char × Literal} (h : x ∈ constants)
    (hrest : Stops (fun c => isAlphanumeric c || c = '_') rest) :
    Reads (constant constants (x.1 ++ rest)) x.2 rest := by
  have hwords : ∀ x ∈ constants, ∀ y ∈ constants, x.1 ≠ [] ∧ (y ≠ x → y.1.head? ≠ x.1.head?) := by decide
  have hlength : rest.length < (x.1 ++ rest).length := by
    have := List.length_pos_of_ne_nil (hwords x h x h).1
    rw [List.length_append]
    omega
  refine reads_constant_of_unique h (afterWord?_append hrest) hlength fun y hy hne => ?_
  exact afterWord?_append_of_ne (hwords y hy x h).1 (hwords x h y hy).1 ((hwords x h y hy).2 hne) rest

theorem reads_primary_constant {c : Char} {w : List Char} {lit : Literal} (h : (c :: w, lit) ∈ constants)
    (hrest : Stops (fun c => isAlphanumeric c || c = '_') rest) :
    Reads (primary c (w ++ rest)) (.literal lit) rest := by
  have hfirst : ∀ x ∈ constants, x.1.headD ' ' ≠ '(' ∧ x.1.headD ' ' ≠ '@' ∧
      ¬ isQuote (x.1.headD ' ') = true ∧ ¬ startsNumber (x.1.headD ' ') = true := by
    decide
  obtain ⟨hopen, hat, hquote, hnumber⟩ : c ≠ '(' ∧ c ≠ '@' ∧ ¬ isQuote c = true ∧ ¬ startsNumber c = true :=
    hfirst _ h
  obtain ⟨hlength, heq⟩ := (reads_constant h hrest).map Expr.literal
  refine ⟨hlength, ?_⟩
  rw [primary, if_neg hopen, if_neg hat, if_neg hquote, if_neg hnumber]
  exact heq

/-! ### Negations and comparisons -/

theorem leaves_unary_not (hcs : skipBlanks cs = '!' :: l) (hl : l.head? ≠ some '=') (h : Leaves (unary l) e rest) :
    Leaves (unary cs) (.not e) rest := by
  obtain ⟨l₁, ⟨hlength, heq⟩, hskip⟩ := h
  have hnegates : negates ('!' :: l) = true := by
    unfold negates
    split
    · next heq =>
      rw [(List.cons.inj heq).2] at hl
      exact absurd rfl hl
    · rfl
    · next hno => exact absurd rfl (hno l)
  refine ⟨l₁, ⟨length_lt_trans hlength (length_lt_of_skipBlanks hcs), ?_⟩, hskip⟩
  rw [unary]
  split
  · next hnil =>
    rw [hcs] at hnil
    cases hnil
  · next hcons =>
    rw [hcs] at hcons
    cases hcons
    rw [if_pos hnegates, heq]

theorem leaves_unary_primary {c : Char} (hcs : skipBlanks cs = c :: l) (hc : c ≠ '!') (h : Reads (primary c l) e rest) :
    Leaves (unary cs) e rest := by
  obtain ⟨hlength, heq⟩ := h
  have hnegates : ¬ negates (c :: l) = true := by
    unfold negates
    split
    · exact Bool.false_ne_true
    · next heq => exact absurd (List.cons.inj heq).1 hc
    · exact Bool.false_ne_true
  refine ⟨rest, ⟨length_lt_of_lt_cons hlength (length_lt_of_skipBlanks hcs), ?_⟩, rfl⟩
  rw [unary]
  split
  · next hnil =>
    rw [hcs] at hnil
    cases hnil
  · next hcons =>
    rw [hcs] at hcons
    cases hcons
    rw [if_neg hnegates, heq]

theorem comparison?_append {before after : List Comparison} {op : Comparison}
    (hbefore : ∀ op' ∈ before, after? op'.symbol cs = none) (hop : after? op.symbol cs = some rest) :
    comparison? (before ++ op :: after) cs = some (op, rest) := by
  induction before with
  | nil => rw [List.nil_append, comparison?, hop]
  | cons op' before ih =>
    rw [List.cons_append, comparison?, hbefore op' (List.mem_cons_self ..)]
    exact ih fun op'' hop'' => hbefore op'' (List.mem_cons_of_mem op' hop'')

/-- A comparison is not taken for another one, if no equals sign follows: those that are tried before do not start its
symbol, and where its symbol starts theirs, they go on with an equals sign. -/
theorem comparison?_symbol (op : Comparison) (h : rest.head? ≠ some '=') :
    comparison? Comparison.all (op.symbol ++ rest) = some (op, rest) := by
  have hsplit : Comparison.all = Comparison.all.takeWhile (fun op' => op' ≠ op) ++
      op :: (Comparison.all.dropWhile fun op' => op' ≠ op).tail := by
    cases op <;> decide
  have hsymbols : ∀ op' ∈ Comparison.all.takeWhile fun op' => op' ≠ op, ¬ op'.symbol <+: op.symbol ∧
      (op.symbol <+: op'.symbol → (op'.symbol.drop op.symbol.length).head? = some '=') := by
    cases op <;> decide
  rw [hsplit]
  refine comparison?_append (fun op' hop' => ?_) (after?_append op.symbol rest)
  obtain ⟨hnot, hlonger⟩ := hsymbols op' hop'
  rw [after?, if_neg]
  intro hstart
  rcases List.prefix_or_prefix_of_prefix hstart (List.prefix_append op.symbol rest) with hprefix | hprefix
  · exact hnot hprefix
  · obtain ⟨v, hv⟩ := hprefix
    have hhead := hlonger ⟨v, hv⟩
    rw [← hv, List.drop_left] at hhead
    rw [← hv] at hstart
    obtain ⟨u, rfl⟩ := List.prefix_append_right_inj op.symbol |>.mp hstart
    refine h ?_
    rw [List.head?_append, hhead]
    rfl

theorem leaves_comparison_operand (h : Leaves (unary cs) e rest)
    (hnone : comparison? Comparison.all (skipBlanks rest) = none) : Leaves (comparison cs) e rest := by
  obtain ⟨l₁, ⟨hlength, heq⟩, hskip⟩ := h
  have hle := length_skipBlanks_le l₁
  refine ⟨skipBlanks l₁, ⟨by omega, ?_⟩, by rw [skipBlanks_skipBlanks, hskip]⟩
  rw [comparison, heq]
  dsimp only
  split
  · rfl
  · next hsome =>
    rw [hskip, hnone] at hsome
    cases hsome

theorem leaves_comparison_compare {op : Comparison} (h : Leaves (unary cs) e l)
    (hop : comparison? Comparison.all (skipBlanks l) = some (op, l₁)) (hf : Leaves (unary l₁) f rest) :
    Leaves (comparison cs) (.compare op e f) rest := by
  obtain ⟨l₂, ⟨hlength, heq⟩, hskip⟩ := h
  obtain ⟨l₃, ⟨hlength', heq'⟩, hskip'⟩ := hf
  rw [← hskip] at hop
  have hle := length_skipBlanks_le l₂
  have hle' : l₁.length ≤ (skipBlanks l₂).length := length_of_comparison? hop
  refine ⟨l₃, ⟨by omega, ?_⟩, hskip'⟩
  rw [comparison, heq]
  dsimp only
  split
  · next hnone =>
    rw [hop] at hnone
    cases hnone
  · next hsome =>
    rw [hop] at hsome
    cases hsome
    rw [heq']

/-! ### Conjunctions and disjunctions -/

/-- The operators that take any number of operands, grouped to the left. -/
inductive Junction where
  | and
  | or

namespace Junction

variable {j : Junction}

def symbol : Junction → List Char
  | and => "&&".toList
  | or => "||".toList

def join : Junction → Expr → Expr → Expr
  | and => .and
  | or => .or

def operand : Junction → (cs : List Char) → Taken cs Expr
  | and => comparison
  | or => andExpr

def operands : Junction → (cs : List Char) → Taken cs Expr
  | and => andExpr
  | or => orExpr

/-- What may follow the operands read so far. -/
def more : Junction → Expr → (cs : List Char) → Perhaps cs Expr
  | and => andRest
  | or => orRest

theorem length_lt_of_symbol (h : after? j.symbol (skipBlanks cs) = some rest) : rest.length < cs.length := by
  cases j <;> exact length_lt_of_after? h

theorem operands_eq (j : Junction) (cs : List Char) :
    j.operands cs = match j.operand cs with
      | .error e => .error e
      | .ok (e, ⟨rest, h⟩) =>
        match j.more e rest with
        | .error e => .error e
        | .ok (e, ⟨rest', h'⟩) => .ok (e, ⟨rest', Nat.lt_of_le_of_lt h' h⟩) := by
  cases j with
  | and => exact andExpr.eq_1 cs
  | or => exact orExpr.eq_1 cs

theorem more_eq (j : Junction) (e : Expr) (cs : List Char) :
    j.more e cs = match h : after? j.symbol (skipBlanks cs) with
      | none => .ok (e, ⟨skipBlanks cs, length_skipBlanks_le cs⟩)
      | some rest =>
        match j.operand rest with
        | .error e => .error e
        | .ok (f, ⟨rest₁, h₁⟩) =>
          match j.more (j.join e f) rest₁ with
          | .error e => .error e
          | .ok (x, ⟨rest₂, h₂⟩) =>
            .ok (x, ⟨rest₂, Nat.le_of_lt (Nat.lt_of_le_of_lt h₂ (length_lt_trans h₁ (length_lt_of_symbol h)))⟩) := by
  cases j with
  | and => exact andRest.eq_1 e cs
  | or => exact orRest.eq_1 e cs

theorem leaves_more_stop (h : after? j.symbol (skipBlanks rest) = none) : Leaves (j.more e rest) e rest := by
  refine ⟨skipBlanks rest, ⟨length_skipBlanks_le rest, ?_⟩, skipBlanks_skipBlanks rest⟩
  rw [more_eq]
  split
  · rfl
  · next hsome =>
    rw [h] at hsome
    cases hsome

theorem leaves_more_step (hl : skipBlanks l = j.symbol ++ l₁) (hf : Leaves (j.operand l₁) f l₂)
    (hgo : ∀ l', skipBlanks l' = skipBlanks l₂ → Leaves (j.more (j.join e f) l') x rest) :
    Leaves (j.more e l) x rest := by
  obtain ⟨l₃, ⟨hlength, heq⟩, hskip⟩ := hf
  obtain ⟨l₄, ⟨hlength', heq'⟩, hskip'⟩ := hgo l₃ hskip
  have hafter : after? j.symbol (skipBlanks l) = some l₁ := by
    rw [hl]
    exact after?_append _ l₁
  have hshorter := length_lt_of_symbol hafter
  refine ⟨l₄, ⟨by omega, ?_⟩, hskip'⟩
  rw [more_eq]
  split
  · next hnone =>
    rw [hafter] at hnone
    cases hnone
  · next hsome =>
    rw [hafter] at hsome
    cases hsome
    rw [heq]
    dsimp only
    rw [heq']

theorem leaves_operands (h : Leaves (j.operand cs) e l)
    (hgo : ∀ l', skipBlanks l' = skipBlanks l → Leaves (j.more e l') x rest) : Leaves (j.operands cs) x rest := by
  obtain ⟨l₁, ⟨hlength, heq⟩, hskip⟩ := h
  obtain ⟨l₂, ⟨hlength', heq'⟩, hskip'⟩ := hgo l₁ hskip
  refine ⟨l₂, ⟨by omega, ?_⟩, hskip'⟩
  rw [operands_eq, heq]
  dsimp only
  rw [heq']

end Junction

end ApiLint.Query.Reader
