import ApiLint.View

/-!
# Models

A model is a schema that may inherit from the schemas listed under `allOf`, and any schema may be a
reference.  The functions here look at models from the viewed document: references are read as if they
were written in it, and a chain of references is followed to its end, which must lie in a document of
the view.

`View.lineage` lists a model and what it inherits from, a model before its parents, skipping a model
that was come to before.  Both `View.properties` and `View.property?` are read off that list, so the
first declaration of a name counts for both.
-/

namespace ApiLint

namespace View

/-! ### References seen from the viewed document -/

/-- The schema that the viewed document defines under a name, as written. -/
def definition? (v : View) (name : String) : Option Value :=
  (v.root.document.value.member? "definitions").bind (Value.member? name)

def followTarget (files : FileSystem) (v : View) (g : Graph) (target : Location) :
    Resolution × Graph :=
  match g.load files target.document with
  | (.error e, g) =>
    (.unresolved ⟨v.id, [], target.path.pointer, .documentUnavailable target.document e.message⟩, g)
  | (.ok d, g) => g.followLoaded files d target.path

/-- Follows a reference as if it were written in the viewed document. -/
def resolve (files : FileSystem) (v : View) (g : Graph) (reference : String) : Resolution × Graph :=
  match g.locate files v.root.document [] reference with
  | (.error e, g) => (.unresolved e, g)
  | (.ok target, g) => v.followTarget files g target

/-- The value that `value` stands for: itself, or for a reference object the end of its chain.  There is
none when the chain does not end, ends outside of the view, or ends at a node that is among `seen`, to
which every end is added. -/
def dereference (files : FileSystem) (v : View) (g : Graph) (seen : List Location) (value : Value) :
    Option Value × List Location × Graph :=
  match value.reference? with
  | none => (some value, seen, g)
  | some r =>
    match v.resolve files g r with
    | (.resolved d p, g) =>
      if ⟨d.id, p⟩ ∈ seen then (none, seen, g)
      else (v.valueAt? ⟨d.id, p⟩, ⟨d.id, p⟩ :: seen, g)
    | (_, g) => (none, seen, g)

def target? (files : FileSystem) (v : View) (g : Graph) (value : Value) : Option Value × Graph :=
  let (found, _, g) := v.dereference files g [] value
  (found, g)

/-! ### Lineages -/

def locations (v : View) : List Location :=
  v.documents.flatMap fun d => d.document.value.nodes.map fun n => ⟨d.id, n.1⟩

/-- The nodes that have not been come to. -/
def unseen (v : View) (seen : List Location) : List Location :=
  v.locations.filter fun l => l ∉ seen

/-- The sizes of values together. -/
noncomputable def sizes : List Value → Nat
  | [] => 0
  | v :: vs => sizeOf v + sizes vs

def parents (model : Value) : List Value :=
  ((model.member? "allOf").bind Value.items?).getD []

theorem sizes_append (vs ws : List Value) : sizes (vs ++ ws) = sizes vs + sizes ws := by
  induction vs with
  | nil => simp [sizes]
  | cons v vs ih => simp [sizes, ih, Nat.add_assoc]

theorem mem_locations_of_valueAt? {v : View} {l : Location} {w : Value}
    (h : v.valueAt? l = some w) : l ∈ v.locations := by
  simp only [valueAt?, Option.bind_eq_some_iff] at h
  obtain ⟨d, hd, hw⟩ := h
  have hid : d.id = l.document := by simpa using List.find?_some hd
  refine List.mem_flatMap.2 ⟨d, List.mem_of_find?_eq_some hd, List.mem_map.2 ⟨(l.path, w), ?_, ?_⟩⟩
  · exact Value.mem_nodes_of_get? hw
  · rw [hid]

theorem sizes_parents_lt (model : Value) : sizes (parents model) < sizeOf model := by
  simp only [parents]
  cases h : (model.member? "allOf").bind Value.items? with
  | none => simpa [sizes] using model.sizeOf_pos
  | some items =>
    simp only [Option.bind_eq_some_iff] at h
    obtain ⟨w, hm, hi⟩ := h
    have lt : sizeOf w < sizeOf model :=
      Value.sizeOf_lt_of_child? (s := .key "allOf") hm
    cases w with
    | array elements =>
      simp only [Value.items?, Option.some.injEq] at hi
      subst hi
      have : ∀ vs : List Value, sizes vs < sizeOf vs := by
        intro vs
        induction vs with
        | nil => simp [sizes]
        | cons x xs ih =>
          simp only [sizes, List.cons.sizeOf_spec] at ih ⊢
          omega
      have := this elements
      simp only [Value.array.sizeOf_spec] at lt
      simp only [Option.getD_some]
      omega
    | _ => simp [Value.items?] at hi

/-- Taking a value off the pending ones makes progress: what is seen does not shrink, and either it
grows, or the value stands for itself or for nothing. -/
theorem dereference_progress {files : FileSystem} {v : View} {g g' : Graph}
    {seen seen' : List Location} {value : Value} {found : Option Value}
    (h : v.dereference files g seen value = (found, seen', g')) :
    (v.unseen seen').length < (v.unseen seen).length ∨
      (v.unseen seen').length ≤ (v.unseen seen).length ∧ (found = none ∨ found = some value) := by
  simp only [dereference] at h
  split at h
  · simp only [Prod.mk.injEq] at h
    obtain ⟨rfl, rfl, _⟩ := h
    exact Or.inr ⟨Nat.le_refl _, Or.inr rfl⟩
  · split at h
    · next d p _ _ =>
      split at h
      · simp only [Prod.mk.injEq] at h
        obtain ⟨rfl, rfl, _⟩ := h
        exact Or.inr ⟨Nat.le_refl _, Or.inl rfl⟩
      · next fresh =>
        simp only [Prod.mk.injEq] at h
        obtain ⟨rfl, rfl, _⟩ := h
        cases hv : v.valueAt? ⟨d.id, p⟩ with
        | none =>
          refine Or.inr ⟨length_filter_le ?_ _, Or.inl rfl⟩
          intro l hl
          simp only [List.mem_cons, not_or, decide_eq_true_eq] at hl ⊢
          exact hl.2
        | some w =>
          left
          refine length_filter_lt (mem_locations_of_valueAt? hv) (by simpa using fresh) (by simp) ?_
          intro l hl
          simp only [List.mem_cons, not_or, decide_eq_true_eq] at hl ⊢
          exact hl.2
    · simp only [Prod.mk.injEq] at h
      obtain ⟨rfl, rfl, _⟩ := h
      exact Or.inr ⟨Nat.le_refl _, Or.inl rfl⟩

/-- The models among `pending` and all that they inherit from, each in front of its parents, up to the
first that satisfies `stop`. -/
def lineageOf (files : FileSystem) (v : View) (stop : Value → Bool) (g : Graph)
    (seen : List Location) (pending : List Value) : List Value × Graph :=
  match pending with
  | [] => ([], g)
  | value :: pending =>
    match _h : v.dereference files g seen value with
    | (none, seen', g) => lineageOf files v stop g seen' pending
    | (some model, seen', g) =>
      if stop model then ([model], g)
      else
        let (models, g) := lineageOf files v stop g seen' (parents model ++ pending)
        (model :: models, g)
termination_by ((v.unseen seen).length, sizes pending)
decreasing_by
  · have pos := value.sizeOf_pos
    have less : sizes pending < sizes (value :: pending) := by
      simp only [sizes]
      omega
    rcases dereference_progress _h with lt | ⟨le, _⟩
    · exact Prod.Lex.left _ _ lt
    · exact lex_of_le le less
  · rcases dereference_progress _h with lt | ⟨le, none | same⟩
    · exact Prod.Lex.left _ _ lt
    · simp at none
    · simp only [Option.some.injEq] at same
      subst same
      refine lex_of_le le ?_
      have := sizes_parents_lt model
      simp only [sizes_append, sizes] at this ⊢
      omega

def lineage (files : FileSystem) (v : View) (stop : Value → Bool) (g : Graph) (model : Value) :
    List Value × Graph :=
  lineageOf files v stop g [] [model]

/-! ### Properties -/

/-- The properties that a model declares itself. -/
def ownProperties (model : Value) : List (String × Value) :=
  ((model.member? "properties").bind Value.members?).getD []

/-- Adds the declarations whose names are not declared yet. -/
def declare (declared own : List (String × Value)) : List (String × Value) :=
  own.foldl (fun ds p => if (List.lookup p.1 ds).isSome then ds else ds ++ [p]) declared

/-- Every property of a model, its own first, then the inherited ones. -/
def properties (files : FileSystem) (v : View) (g : Graph) (model : Value) :
    List (String × Value) × Graph :=
  let (models, g) := v.lineage files (fun _ => false) g model
  ((models.map ownProperties).foldl declare [], g)

def property? (files : FileSystem) (v : View) (g : Graph) (model : Value) (name : String) :
    Option Value × Graph :=
  let (models, g) := v.lineage files (fun m => (List.lookup name (ownProperties m)).isSome) g model
  (models.findSome? fun m => List.lookup name (ownProperties m), g)

end View

end ApiLint
