import ApiLint.Proofs.Query.Rendering

/-!
# Only what can be written is read

Every query that is read can be written, unless a filter of it compares with a number that is not whole
(`isWritable_of_read`); since what is written is read back, steps with whole numbers are read from some text if and only if
they can be written (`isWritable_iff_exists_read`).  One lemma for each reader says what it comes to, whatever its text is
(`Reader.Yields`); those of the expressions follow the recursion of their readers.
-/

namespace ApiLint.Query

/-! ### Whole numbers -/

def Literal.IsWhole : Literal → Prop
  | number (.real _) => False
  | number (.int _) | undefined | null | bool _ | string _ => True

def Expr.IsWhole : Expr → Prop
  | current _ | property => True
  | literal l => l.IsWhole
  | not e => e.IsWhole
  | and e f | or e f | compare _ e f => e.IsWhole ∧ f.IsWhole

def Selector.IsWhole : Selector → Prop
  | filter e => e.IsWhole
  | name _ | index _ | wildcard => True

def Step.IsWhole : Step → Prop
  | child selectors | descendant selectors => ∀ s ∈ selectors, s.IsWhole
  | parent => True

/-- The expression can be written, unless a number in it is not whole. -/
def Expr.Fits (e : Expr) : Prop :=
  e.IsWhole → e.IsWritable

def AreFitting (selectors : List Selector) : Prop :=
  (∀ s ∈ selectors, s.IsWhole) → AreWritable selectors

def Step.Fits (s : Step) : Prop :=
  s.IsWhole → s.IsWritable

theorem areFitting_of_plain {ss : List Selector} (hne : ss ≠ []) (h : ∀ s ∈ ss, s.IsPlain) : AreFitting ss :=
  fun _ => .inl ⟨hne, h⟩

theorem areFitting_singleton {s : Selector} (h : s.IsPlain) : AreFitting [s] :=
  areFitting_of_plain (List.cons_ne_nil s []) (List.forall_mem_singleton.mpr h)

namespace Reader

/-- What the reader comes to, if it comes to something, is so. -/
def Yields {α : Type} {P : List Char → Prop} (T : α → Prop)
    (r : Except Fault (α × { rest : List Char // P rest })) : Prop :=
  ∀ a rest, r = .ok (a, rest) → T a

section

variable {α β : Type} {P Q : List Char → Prop} {T : α → Prop} {U : β → Prop}

theorem yields_error (e : Fault) : Yields (P := P) T (.error e) :=
  fun _ _ h => nomatch h

theorem yields_ok {a : α} (h : T a) (rest : { rest : List Char // P rest }) : Yields T (.ok (a, rest)) := by
  rintro b _ heq
  cases heq
  exact h

theorem Yields.map {r : Except Fault (α × { rest : List Char // P rest })} (h : Yields T r)
    {f : α × { rest : List Char // P rest } → β × { rest : List Char // Q rest }} (hf : ∀ x, T x.1 → U (f x).1) :
    Yields U (r.map f) := by
  intro b rest heq
  cases r with
  | error e => cases heq
  | ok x =>
    have hx := hf x (h x.1 x.2 rfl)
    rw [Except.ok.inj heq] at hx
    exact hx

theorem yields_map {r : Except Fault (α × { rest : List Char // P rest })}
    {f : α × { rest : List Char // P rest } → β × { rest : List Char // Q rest }} (hf : ∀ x, U (f x).1) :
    Yields U (r.map f) :=
  Yields.map (T := fun _ => True) (fun _ _ _ => trivial) fun x _ => hf x

end

/-! ### Tokens -/

theorem isIndex_of_int64? {cs : List Char} {i : Int} (h : int64? cs = some i) : IsIndex i := by
  have hpos : 0 < signedLimit := by decide
  unfold int64? at h
  unfold IsIndex
  split at h <;> split at h <;> cases h <;> next hcond =>
    simp only [Bool.and_eq_true, decide_eq_true_eq] at hcond
    omega

theorem yields_integer (cs : List Char) : Yields IsIndex (integer cs) := by
  rw [integer]
  split
  · exact yields_error _
  · next i hi =>
    split
    · exact yields_ok (isIndex_of_int64? hi) _
    · exact yields_error _

/-- A numeral of a whole number is one of 64 bits, with or without a sign. -/
theorem isWritable_of_ofNumeral? {n : Numeral} {i : Int} (h : Number.ofNumeral? n = some (.int i)) :
    (Literal.number (.int i)).IsWritable := by
  unfold Number.ofNumeral? at h
  unfold Literal.IsWritable
  dsimp only at h
  split at h
  · next hcond =>
    cases h
    simp only [Bool.and_eq_true, decide_eq_true_eq] at hcond
    omega
  · split at h
    · next hcond =>
      cases h
      simp only [Bool.and_eq_true, decide_eq_true_eq] at hcond
      omega
    · obtain ⟨f, -, hf⟩ := Option.map_eq_some_iff.mp h
      cases hf

theorem yields_number (cs : List Char) : Yields (fun n => Expr.Fits (.literal (.number n))) (number cs) := by
  unfold number
  split
  · exact yields_error _
  · split
    · exact yields_error _
    · next n hn =>
      refine yields_ok (fun hwhole => ?_) _
      cases n with
      | int i =>
        obtain ⟨numeral, -, hnumeral⟩ := Option.bind_eq_some_iff.mp hn
        exact isWritable_of_ofNumeral? hnumeral
      | real => exact hwhole.elim

/-! ### Filters -/

theorem yields_bracketed (cs : List Char) : Yields Accessor.IsWritable (bracketed cs) := by
  unfold bracketed
  split
  · exact yields_error _
  · next c rest =>
    split
    · exact yields_map fun _ => trivial
    · exact (yields_integer (c :: rest)).map fun _ h => h

theorem yields_accessor (c : Char) (cs : List Char) : Yields Accessor.IsWritable (accessor c cs) := by
  rw [accessor]
  split
  · exact yields_map fun _ => trivial
  · split
    · exact yields_error _
    · next a rest hrest heq =>
      have ha := yields_bracketed _ _ _ heq
      split
      · exact yields_error _
      · exact yields_ok ha _

theorem yields_accessors (cs : List Char) : Yields (fun as => ∀ a ∈ as, a.IsWritable) (accessors cs) := by
  have hnone : ∀ a ∈ ([] : List Accessor), a.IsWritable := fun _ ha => absurd ha List.not_mem_nil
  cases cs with
  | nil =>
    rw [accessors]
    exact yields_ok hnone _
  | cons c rest =>
    rw [accessors]
    split
    · split
      · exact yields_error _
      · next a rest₁ hlt heq =>
        have ha := yields_accessor c rest a _ heq
        split
        · exact yields_error _
        · next as rest₂ _ heq' =>
          have has := yields_accessors rest₁ as _ heq'
          exact yields_ok (List.forall_mem_cons.mpr ⟨ha, has⟩) _
    · exact yields_ok hnone _
termination_by cs.length

theorem fits_of_mem_constants {w : List Char × Literal} (h : w ∈ constants) : Expr.Fits (.literal w.2) := by
  simp only [constants, List.mem_cons, List.not_mem_nil, or_false] at h
  rcases h with rfl | rfl | rfl | rfl <;> exact fun _ => trivial

theorem yields_constant (ws : List (List Char × Literal)) (cs : List Char)
    (h : ∀ w ∈ ws, Expr.Fits (.literal w.2)) : Yields (fun l => Expr.Fits (.literal l)) (constant ws cs) := by
  induction ws with
  | nil => exact yields_error _
  | cons w ws ih =>
    rw [constant]
    split
    · exact ih fun w' hw' => h w' (List.mem_cons_of_mem w hw')
    · split
      · exact yields_ok (T := fun l => Expr.Fits (.literal l)) (h w (List.mem_cons_self ..)) _
      · exact yields_error _

theorem Junction.fits_join {e f : Expr} (he : e.Fits) (hf : f.Fits) (j : Junction) : (j.join e f).Fits := by
  cases j <;> exact fun hwhole => ⟨he hwhole.1, hf hwhole.2⟩

/-- How loosely an operator binds. -/
@[simp] def Junction.height : Junction → Nat
  | and => 0
  | or => 1

mutual

theorem yields_operands (j : Junction) (cs : List Char) : Yields Expr.Fits (j.operands cs) := by
  rw [j.operands_eq]
  split
  · exact yields_error _
  · next e rest _ heq =>
    have he := yields_operand j cs e _ heq
    split
    · exact yields_error _
    · next e' rest' _ heq' => exact yields_ok (yields_more j he rest e' _ heq') _
termination_by (cs.length, 2 * j.height + 5)

theorem yields_operand (j : Junction) (cs : List Char) : Yields Expr.Fits (j.operand cs) := by
  cases j with
  | and => exact yields_comparison cs
  | or => exact yields_operands .and cs
termination_by (cs.length, 2 * j.height + 4)

theorem yields_more (j : Junction) {left : Expr} (h : left.Fits) (cs : List Char) :
    Yields Expr.Fits (j.more left cs) := by
  rw [j.more_eq]
  split
  · exact yields_ok h _
  · next rest hafter =>
    have hlength := Junction.length_lt_of_symbol hafter
    split
    · exact yields_error _
    · next right rest₁ _ heq =>
      have hright := yields_operand j rest right _ heq
      split
      · exact yields_error _
      · next e rest₂ _ heq' => exact yields_ok (yields_more j (j.fits_join h hright) rest₁ e _ heq') _
termination_by (cs.length, 0)

theorem yields_comparison (cs : List Char) : Yields Expr.Fits (comparison cs) := by
  rw [comparison]
  split
  · exact yields_error _
  · next left rest _ heq =>
    have hleft := yields_unary cs left _ heq
    dsimp only
    split
    · exact yields_ok hleft _
    · next op rest₁ hop =>
      have hlength : rest₁.length ≤ (skipBlanks rest).length := length_of_comparison? hop
      have hskip := length_skipBlanks_le rest
      split
      · exact yields_error _
      · next right rest₂ _ heq' =>
        have hright := yields_unary rest₁ right _ heq'
        exact yields_ok (fun hwhole => ⟨hleft hwhole.1, hright hwhole.2⟩) _
termination_by (cs.length, 3)

theorem yields_unary (cs : List Char) : Yields Expr.Fits (unary cs) := by
  rw [unary]
  split
  · exact yields_error _
  · next c rest hskip =>
    have hlength := length_lt_of_skipBlanks hskip
    dsimp only
    split
    · split
      · exact yields_error _
      · next e rest₁ _ heq =>
        have he := yields_unary rest e _ heq
        exact yields_ok (fun hwhole => he hwhole) _
    · split
      · exact yields_error _
      · next e rest₁ _ heq => exact yields_ok (yields_primary c rest e _ heq) _
termination_by (cs.length, 2)

theorem yields_primary (c : Char) (rest : List Char) : Yields Expr.Fits (primary c rest) := by
  rw [primary]
  split
  · split
    · exact yields_error _
    · next e rest₁ _ heq =>
      have he := yields_operands .or rest e _ heq
      split
      · exact yields_error _
      · exact yields_ok he _
  · split
    · split
      · exact yields_ok (fun _ => trivial) _
      · split
        · exact yields_error _
        · next as rest₁ _ heq =>
          have has := yields_accessors rest as _ heq
          exact yields_ok (fun _ => has) _
    · split
      · exact yields_map fun _ _ => trivial
      · split
        · exact (yields_number (c :: rest)).map fun _ h => h
        · exact (yields_constant constants (c :: rest) fun _ => fits_of_mem_constants).map fun _ h => h
termination_by (rest.length, 8)

end

/-! ### Steps -/

theorem yields_selector (cs : List Char) : Yields Selector.IsPlain (selector cs) := by
  unfold selector
  split
  · exact yields_error _
  · next c rest =>
    split
    · exact yields_ok (a := Selector.wildcard) trivial _
    · split
      · exact yields_map fun _ => trivial
      · split
        · exact (yields_integer (c :: rest)).map fun _ h => h
        · exact yields_error _

theorem yields_selectors (cs : List Char) :
    Yields (fun ss => ss ≠ [] ∧ ∀ s ∈ ss, s.IsPlain) (selectors cs) := by
  rw [selectors]
  split
  · exact yields_error _
  · next s rest _ heq =>
    have hs := yields_selector _ s _ heq
    have hskip := length_skipBlanks_le cs
    dsimp only
    split
    · exact yields_ok ⟨List.cons_ne_nil s [], List.forall_mem_singleton.mpr hs⟩ _
    · split
      · exact yields_error _
      · next rest₁ _ heq' =>
        split
        · exact yields_error _
        · next ss rest₂ _ heq'' =>
          have hss := yields_selectors rest₁ ss _ heq''
          exact yields_ok ⟨List.cons_ne_nil s ss, List.forall_mem_cons.mpr ⟨hs, hss.2⟩⟩ _
termination_by cs.length

theorem yields_filter (cs : List Char) : Yields AreFitting (filter cs) := by
  rw [filter]
  split
  · exact yields_error _
  · next rest₁ _ _ =>
    split
    · exact yields_error _
    · next e rest₂ _ heq =>
      have he := yields_operands .or rest₁ e _ heq
      split
      · exact yields_error _
      · split
        · exact yields_error _
        · exact yields_ok (fun hwhole => .inr ⟨e, rfl, he (hwhole _ (List.mem_singleton_self _))⟩) _

theorem yields_bracket (cs : List Char) : Yields AreFitting (bracket cs) := by
  have hplain : Yields AreFitting (selectors cs) := by
    intro ss rest heq
    have hss := yields_selectors cs ss rest heq
    exact areFitting_of_plain hss.1 hss.2
  rw [bracket]
  split
  · exact hplain
  · next c rest _ =>
    split
    · split
      · exact yields_error _
      · next ss rest₁ _ heq => exact yields_ok (yields_filter rest ss _ heq) _
    · exact hplain

theorem yields_member (cs : List Char) : Yields AreFitting (member cs) := by
  rw [member]
  split
  · split
    · exact yields_ok (areFitting_singleton (s := .wildcard) trivial) _
    · exact yields_error _
  · exact yields_map fun x => areFitting_singleton (s := .name x.1) trivial

theorem yields_descendant (cs : List Char) : Yields AreFitting (descendant cs) := by
  unfold descendant
  split
  · next rest =>
    split
    · exact yields_error _
    · next ss rest₁ _ heq => exact yields_ok (yields_bracket rest ss _ heq) _
  · exact yields_member _

theorem yields_step (cs : List Char) : Yields Step.Fits (step cs) := by
  unfold step
  split
  · exact yields_error _
  · next c rest =>
    dsimp only
    split
    · split
      · next more => exact (yields_descendant more).map fun _ h => h
      · exact (yields_member _).map fun _ h => h
    · split
      · exact (yields_bracket rest).map fun _ h => h
      · split
        · exact yields_ok (a := Step.parent) (fun _ => trivial) _
        · exact yields_error _

theorem fits_of_allSteps {cs : List Char} {steps : List Step} (h : allSteps cs = .ok steps) :
    ∀ s ∈ steps, s.Fits := by
  rw [allSteps] at h
  split at h
  · cases h
    exact fun _ hs => absurd hs List.not_mem_nil
  · next c rest hskip =>
    split at h
    · cases h
    · next s rest₁ hlength heq =>
      have hs := yields_step (c :: rest) s _ heq
      have hlt := length_lt_of_lt_cons hlength (length_lt_of_skipBlanks hskip)
      cases hmore : allSteps rest₁ with
      | error e =>
        rw [hmore] at h
        cases h
      | ok more =>
        rw [hmore] at h
        cases h
        exact List.forall_mem_cons.mpr ⟨hs, fits_of_allSteps hmore⟩
termination_by cs.length

end Reader

/-- **Only what can be written is read**: a query comes to steps that can be written, unless a number in one of its
filters is not whole. -/
theorem isWritable_of_read {text : String} {q : Query} (h : read text = .ok q) {s : Step} (hs : s ∈ q.steps)
    (hwhole : s.IsWhole) : s.IsWritable := by
  rw [read] at h
  split at h
  · next steps hread =>
    cases h
    rw [Reader.readChars] at hread
    split at hread
    · cases hread
    · split at hread
      · exact Reader.fits_of_allSteps hread s hs hwhole
      · cases hread
  · cases h

/-- **Steps with whole numbers are read from some text if and only if they can be written.** -/
theorem isWritable_iff_exists_read {steps : List Step} (hwhole : ∀ s ∈ steps, s.IsWhole) :
    (∀ s ∈ steps, s.IsWritable) ↔ ∃ text q, read text = .ok q ∧ q.steps = steps := by
  constructor
  · intro h
    let w : Style := ⟨'\'', [], rfl, fun _ hc => absurd hc List.not_mem_nil⟩
    exact ⟨w.render steps, ⟨_, steps⟩, by rw [read, w.readChars_render h], rfl⟩
  · rintro ⟨text, q, hread, rfl⟩
    intro s hs
    exact isWritable_of_read hread hs (hwhole s hs)

end ApiLint.Query
