import ApiLint.Rule.Basic

/-!
# Bodies of PATCH operations

The body of a PATCH carries what a client wants to change and nothing else.  A property with a default
would be reset by clients that never sent it, a required one has to be sent again every time, and one
that is set on creation only cannot be changed at all.

The rule walks the schema of the body.  The effective properties of a schema are its own and those of
the schemas listed under `allOf`; the walk goes down into each of them.

A `Walk` hands out its findings one at a time.  It keeps a stack of the schemas that are still to be
visited, and only when all findings at hand are handed out does it visit the next one.  It ends because a
property is smaller than the schema that has it: so only so many schemas can be visited from one schema on
(`size`), and every visit leaves fewer of them.
-/

namespace ApiLint.PatchBodyParameters

def parents (schema : Node) : List Node :=
  ((schema.child? (.key "allOf")).map Node.elements).getD []

/-- The properties that a schema declares itself, as far as they are objects. -/
def ownProperties (schema : Node) : List (String × Node) :=
  (((schema.child? (.key "properties")).map Node.members).getD []).filter fun p => p.2.value.isObject

theorem measure_lt_of_mem_parents {schema parent : Node} (h : parent ∈ parents schema) :
    Node.Less parent.measure schema.measure := by
  simp only [parents] at h
  cases hc : schema.child? (.key "allOf") with
  | none => simp [hc] at h
  | some c =>
    simp only [hc, Option.map_some, Option.getD_some] at h
    exact (Node.measure_lt_of_mem_elements h).trans (Node.measure_lt_of_child? hc)

theorem measure_lt_of_mem_ownProperties {schema property : Node} {name : String}
    (h : (name, property) ∈ ownProperties schema) :
    Node.Less property.measure schema.measure := by
  simp only [ownProperties, List.mem_filter] at h
  cases hc : schema.child? (.key "properties") with
  | none => simp [hc] at h
  | some c =>
    simp only [hc, Option.map_some, Option.getD_some] at h
    exact (Node.measure_lt_of_mem_members h.1).trans (Node.measure_lt_of_child? hc)

/-- The effective properties of a schema: its own, then those of its parents. -/
def effectiveProperties (schema : Node) : List (String × Node) :=
  ownProperties schema ++ (parents schema).attach.flatMap fun p => effectiveProperties p.1
termination_by schema
decreasing_by exact measure_lt_of_mem_parents p.2

theorem measure_lt_of_mem_effectiveProperties {schema property : Node} {name : String}
    (h : (name, property) ∈ effectiveProperties schema) :
    Node.Less property.measure schema.measure := by
  fun_induction effectiveProperties schema with
  | case1 schema ih =>
    rcases List.mem_append.1 h with h | h
    · exact measure_lt_of_mem_ownProperties h
    · obtain ⟨p, _, hp⟩ := List.mem_flatMap.1 h
      exact (ih p hp).trans (measure_lt_of_mem_parents p.2)

def addName (names : List String) (name : String) : List String :=
  if name ∈ names then names else names ++ [name]

def ownRequired (schema : Value) : List String :=
  (((schema.member? "required").bind Value.items?).getD []).filterMap Value.string?

/-- The names that a schema requires: its own, then those of its parents that are new. -/
def requiredNames (schema : Node) : List String :=
  ((parents schema).attach.flatMap fun p => requiredNames p.1).foldl addName (ownRequired schema.value)
termination_by schema
decreasing_by exact measure_lt_of_mem_parents p.2

def isCreateOnly (property : Value) : Bool :=
  let moments := (((property.member? "x-ms-mutability").bind Value.items?).getD []).filterMap
    Value.string?
  moments.contains "create" && !moments.contains "update"

def message (quality name : String) : String :=
  s!"Properties of a PATCH request body must not {quality}, property:{name}."

def propertyFindings (location : Path) (name : String) (property : Value) : List Finding :=
  (if (property.member? "default").isSome then [⟨message "have default value" name, location⟩] else []) ++
    (if isCreateOnly property then
      [⟨message "be x-ms-mutability: [\"create\"]" name, location⟩] else [])

def propertyLocation (location : Path) (name : String) : Path :=
  (location.child (.key "properties")).child (.key name)

/-! ### The walk -/

/-- The findings at hand, and the schemas to visit after them with their locations, the next one first. -/
structure Walk where
  pending : List Finding
  stack : List (Node × Path)

def size (schema : Node) : Nat :=
  ((effectiveProperties schema).attach.map fun p => size p.1.2).foldr (· + ·) 1
termination_by schema
decreasing_by exact measure_lt_of_mem_effectiveProperties p.2

theorem size_eq (schema : Node) :
    size schema = ((effectiveProperties schema).map fun p => size p.2).foldr (· + ·) 1 := by
  rw [size, List.map_subtype (g := fun p => size p.2) (fun _ _ => rfl), List.unattach_attach]

namespace Walk

/-- The number of visits to come. -/
def weight (w : Walk) : Nat :=
  (w.stack.map fun n => size n.1).foldr (· + ·) 0

/-- Adds what is wrong with the properties of a schema, and puts them on the stack from the last one on, so
that they are visited in order. -/
def visit (w : Walk) (schema : Node) (location : Path) : Walk where
  pending := w.pending ++
    (effectiveProperties schema).flatMap fun p => propertyFindings location p.1 p.2.value
  stack := (effectiveProperties schema).reverse.foldl
    (fun stack p => (p.2, propertyLocation location p.1) :: stack) w.stack

theorem stack_visit (w : Walk) (schema : Node) (location : Path) :
    (w.visit schema location).stack
      = (effectiveProperties schema).map (fun p => (p.2, propertyLocation location p.1)) ++ w.stack := by
  show (effectiveProperties schema).reverse.foldl _ w.stack = _
  rw [List.foldl_reverse]
  induction effectiveProperties schema with
  | nil => rfl
  | cons p ps ih => rw [List.foldr_cons, ih, List.map_cons, List.cons_append]

theorem weight_visit (w : Walk) (schema : Node) (location : Path) :
    (w.visit schema location).weight + 1 = size schema + w.weight := by
  have hadd : ∀ (sizes : List Nat) (a b : Nat), sizes.foldr (· + ·) (a + b) = sizes.foldr (· + ·) a + b :=
    fun _ _ _ => List.foldr_assoc
  rw [weight, stack_visit, List.map_append, List.foldr_append, List.map_map, ← weight, ← hadd, size_eq, ← hadd,
    Nat.add_comm w.weight]
  rfl

def next? : Walk → Option (Finding × Walk)
  | ⟨finding :: pending, stack⟩ => some (finding, ⟨pending, stack⟩)
  | ⟨[], []⟩ => none
  | ⟨[], (schema, location) :: stack⟩ => next? (visit ⟨[], stack⟩ schema location)
termination_by w => w.weight
decreasing_by
  have h := weight_visit ⟨[], stack⟩ schema location
  simp only [weight, List.map_cons, List.foldr_cons] at h ⊢
  omega

/-- Every finding leaves fewer visits to come, or as many and fewer findings at hand. -/
theorem lt_of_next? {w rest : Walk} {finding : Finding} (h : w.next? = some (finding, rest)) :
    Node.Less (rest.weight, rest.pending.length) (w.weight, w.pending.length) := by
  fun_induction next? w with
  | case1 finding' pending stack =>
    cases h
    exact Prod.Lex.right _ (Nat.lt_succ_self _)
  | case2 => cases h
  | case3 schema location stack ih =>
    have hvisit := weight_visit ⟨[], stack⟩ schema location
    refine (ih h).trans (Prod.Lex.left _ _ ?_)
    simp only [weight, List.map_cons, List.foldr_cons] at hvisit ⊢
    omega

def findings (w : Walk) : List Finding :=
  match _h : w.next? with
  | none => []
  | some (finding, rest) => finding :: findings rest
termination_by (w.weight, w.pending.length)
decreasing_by exact lt_of_next? _h

/-- A walk from the schema of a body, which has the required properties at hand. -/
def start (location : Path) (schema : Node) : Walk where
  pending := (requiredNames schema).map fun name => ⟨message "be required" name, location⟩
  stack := [(schema, location)]

end Walk

def check (c : Context) (_ : Value) (schema : Node) (g : Graph) : List (Except Fault Finding) × Graph :=
  ((Walk.start c.location schema).findings.map .ok, g)

def draft : RuleDraft where
  id := "R4007"
  name := "PatchBodyParametersSchema"
  description := "Properties of a PATCH request body must not be default, required or create-only"
  severity := .error
  category := "ARMViolation"
  types := .all
  resolved := true
  given := ["$.paths.*.patch.parameters[?(@.in === 'body')]"]
  field := some "$.schema"
  function := some (.streaming check)

end ApiLint.PatchBodyParameters
