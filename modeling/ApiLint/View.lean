import ApiLint.Graph

/-!
# Views

A `View` is a document together with every document that its references reach.  It is the ground on
which references are followed: its tables are all resolved, so that nothing more need be loaded.

`View.landing?` says where a reference at the end of a trail leads.  A reference whose target encloses
the reference itself, or any reference crossed on the way to it, is not followed.  The main fact is
`open_lt_of_landing?`: every landing leaves fewer edges open, by which every chain and every walk ends.
-/

namespace ApiLint

/-- A document and the documents that its references reach. -/
structure View where
  root : Loaded
  others : List Loaded

namespace View

/-- All documents, the viewed one first. -/
def documents (v : View) : List Loaded :=
  v.root :: v.others

def id (v : View) : DocumentId :=
  v.root.id

def document? (v : View) (id : DocumentId) : Option Loaded :=
  v.documents.find? fun d => d.id = id

def valueAt? (v : View) (l : Location) : Option Value :=
  (v.document? l.document).bind fun d => d.document.valueAt? l.path

def edge? (v : View) (l : Location) : Option Edge :=
  (v.document? l.document).bind fun d => d.references.edge? l.path

def edges (v : View) : List Edge :=
  v.documents.flatMap fun d => d.references.edges

theorem mem_edges_of_edge? {v : View} {l : Location} {e : Edge} (h : v.edge? l = some e) :
    e ∈ v.edges := by
  simp only [edge?, Option.bind_eq_some_iff] at h
  obtain ⟨d, hd, he⟩ := h
  exact List.mem_flatMap.2 ⟨d, List.mem_of_find?_eq_some hd, ReferenceTable.mem_of_edge? he⟩

/-! ### Gathering the documents -/

/-- Loads the documents that the edges of `d` lead to and that are not among `present`. -/
def loadTargets (files : FileSystem) (present : List DocumentId) :
    List Edge → Graph → List Loaded × Graph
  | [], g => ([], g)
  | e :: rest, g =>
    if e.target.document ∈ present then loadTargets files present rest g
    else
      match g.load files e.target.document with
      | (.error _, g) => loadTargets files present rest g
      | (.ok d, g) =>
        let (ds, g) := loadTargets files present rest g
        (d :: ds, g)

/-- Takes documents off `pending`, the last found first, until all are gathered or `room` more have
been. -/
def gather (files : FileSystem) (room : Nat) (gathered pending : List Loaded) (g : Graph) :
    List Loaded × Graph :=
  match pending with
  | [] => (gathered, g)
  | d :: pending =>
    if d.id ∈ gathered.map Loaded.id then gather files room gathered pending g
    else
      match room with
      | 0 => (gathered, g)
      | room + 1 =>
        let (found, g) := loadTargets files (d.id :: gathered.map Loaded.id) d.references.edges g
        gather files room (gathered ++ [d]) (found.reverse ++ pending) g
termination_by (room, pending.length)

/-- The view of a loaded document. -/
def ofLoaded (files : FileSystem) (g : Graph) (root : Loaded) : View × Graph :=
  let (found, g') := loadTargets files [root.id] root.references.edges g
  let (documents, g'') :=
    gather files (files.files.length + g.entries.length) [root] found.reverse g'
  (⟨root, documents.drop 1⟩, g'')

def ofDocument (files : FileSystem) (g : Graph) (id : DocumentId) : Except LoadError View × Graph :=
  match g.load files id with
  | (.error e, g) => (.error e, g)
  | (.ok root, g) =>
    let (v, g) := ofLoaded files g root
    (.ok v, g)

/-! ### Landing on a target -/

/-- The edges that may still be crossed after a trail: those whose target encloses none of it. -/
def openEdges (v : View) (trail : List Location) : List Edge :=
  v.edges.filter fun e => !trail.any e.target.encloses

/-- The target of the reference object `value`, which stands at `place` after references were crossed at
the places `crossed`. -/
def landing? (v : View) (place : Location) (crossed : List Location) (value : Value) :
    Option (Location × Value) :=
  match value.reference?, v.edge? place with
  | some _, some e =>
    if (place :: crossed).any e.target.encloses then none
    else (v.valueAt? e.target).map fun w => (e.target, w)
  | _, _ => none

/-- A list filtered more strictly is no longer. -/
theorem length_filter_le {α : Type} {p q : α → Bool} (h : ∀ y, q y = true → p y = true)
    (xs : List α) : (xs.filter q).length ≤ (xs.filter p).length := by
  induction xs with
  | nil => exact Nat.le_refl _
  | cons y ys ih =>
    by_cases hy : q y = true
    · simp [hy, h y hy, ih]
    · by_cases hy' : p y = true <;> simp [hy, hy'] <;> omega

/-- A list filtered more strictly, so that a member falls out, is shorter. -/
theorem length_filter_lt {α : Type} {p q : α → Bool} {xs : List α} {x : α} (hx : x ∈ xs)
    (hp : p x = true) (hq : q x = false) (h : ∀ y, q y = true → p y = true) :
    (xs.filter q).length < (xs.filter p).length := by
  induction xs with
  | nil => simp at hx
  | cons y ys ih =>
    rcases List.mem_cons.1 hx with rfl | hx
    · have := length_filter_le h ys
      simp [hp, hq]
      omega
    · have := ih hx
      by_cases hy : q y = true
      · simp [hy, h y hy, this]
      · by_cases hy' : p y = true <;> simp [hy, hy'] <;> omega

theorem lex_of_le {a a' b b' : Nat} (h : a' ≤ a) (h' : b' < b) :
    Prod.Lex (fun x y => x < y) (fun x y => x < y) (a', b') (a, b) := by
  rcases Nat.lt_or_eq_of_le h with lt | rfl
  · exact Prod.Lex.left _ _ lt
  · exact Prod.Lex.right _ h'

/-- Every landing leaves fewer edges open. -/
theorem open_lt_of_landing? {v : View} {place : Location} {crossed : List Location}
    {value w : Value} {t : Location} (h : v.landing? place crossed value = some (t, w)) :
    (v.openEdges (t :: place :: crossed)).length < (v.openEdges (place :: crossed)).length := by
  simp only [landing?] at h
  split at h
  · next e _ he =>
    split at h
    · simp at h
    · next hopen =>
      simp only [Option.map_eq_some_iff, Prod.mk.injEq] at h
      obtain ⟨_, _, rfl, _⟩ := h
      refine length_filter_lt (mem_edges_of_edge? he) ?_ ?_ ?_
      · simpa using hopen
      · simp
      · intro e' he'
        simp only [List.any_cons, Bool.not_or, Bool.and_eq_true] at he' ⊢
        exact he'.2
  · simp at h

/-- A step down leaves no more edges open. -/
theorem open_child_le (v : View) (l : Location) (s : Segment) (crossed : List Location) :
    (v.openEdges (⟨l.document, l.path.child s⟩ :: crossed)).length
      ≤ (v.openEdges (l :: crossed)).length := by
  refine length_filter_le ?_ v.edges
  intro e he
  simp only [List.any_cons, Bool.not_or, Bool.and_eq_true, Bool.not_eq_true'] at he ⊢
  refine ⟨?_, he.2⟩
  cases hl : e.target.encloses l with
  | false => rfl
  | true => exact absurd (Location.encloses_child hl s) (by rw [he.1]; exact Bool.false_ne_true)

end View

end ApiLint
