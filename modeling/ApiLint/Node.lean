import ApiLint.View

/-!
# Nodes

A `Node` is where a walk has come to: a value, and for a walk through a view also the place where the
value was written and the references crossed on the way.  Stepping onto a reference object of a view
lands on its target, and further on while the target is a reference object again.  A raw node has no
origin and sees references as they are written.

`Node.preorder` lists a node and everything below it.  It ends because every child has a smaller
`Node.measure`: either fewer edges are open to it, or as many and its value is smaller.
-/

namespace ApiLint

/-- Where a node of a view stands, and the references crossed on the way there, the last one first. -/
structure Origin where
  view : View
  place : Location
  crossed : List Location

/-- A value, with its origin if it was reached through a view. -/
structure Node where
  value : Value
  origin : Option Origin

namespace Node

/-- A node that sees references as they are written. -/
def raw (value : Value) : Node :=
  ⟨value, none⟩

/-- The node that a walk comes to at a place: the value there, or, as long as it is a reference object
that may be followed, the target. -/
def enter (view : View) (place : Location) (crossed : List Location) (value : Value) : Node :=
  match _h : view.landing? place crossed value with
  | none => ⟨value, some ⟨view, place, crossed⟩⟩
  | some (target, v) => enter view target (place :: crossed) v
termination_by (view.openEdges (place :: crossed)).length
decreasing_by exact View.open_lt_of_landing? _h

/-- The node for a child with the value `v`. -/
def descend (n : Node) (s : Segment) (v : Value) : Node :=
  match n.origin with
  | none => raw v
  | some o => enter o.view ⟨o.place.document, o.place.path.child s⟩ o.crossed v

/-- The place where the value was written, for a node of a view. -/
def source? (n : Node) : Option Location :=
  n.origin.map Origin.place

def child? (n : Node) (s : Segment) : Option Node :=
  (n.value.child? s).map (n.descend s)

def at? (n : Node) : Path → Option Node
  | [] => some n
  | s :: p => (n.child? s).bind fun c => c.at? p

def children (n : Node) : List (Segment × Node) :=
  n.value.children.map fun c => (c.1, n.descend c.1 c.2)

def members (n : Node) : List (String × Node) :=
  ((n.value.members?).getD []).map fun m => (m.1, n.descend (.key m.1) m.2)

def elements (n : Node) : List Node :=
  ((n.value.items?).getD []).zipIdx.map fun c => n.descend (.index c.2) c.1

/-! ### Walks end -/

/-- How many edges are still open to a walk. -/
def openCount (n : Node) : Nat :=
  match n.origin with
  | none => 0
  | some o => (o.view.openEdges (o.place :: o.crossed)).length

/-- What gets smaller with every step down. -/
noncomputable def measure (n : Node) : Nat × Nat :=
  (n.openCount, sizeOf n.value)

/-- Smaller in the first component, or equal there and smaller in the second. -/
abbrev Less : Nat × Nat → Nat × Nat → Prop :=
  Prod.Lex (· < ·) (· < ·)

theorem openCount_enter (view : View) (place : Location) (crossed : List Location) (value : Value) :
    (enter view place crossed value).openCount < (view.openEdges (place :: crossed)).length ∨
      (enter view place crossed value).openCount = (view.openEdges (place :: crossed)).length ∧
        (enter view place crossed value).value = value := by
  fun_induction enter view place crossed value with
  | case1 place crossed value h => exact Or.inr ⟨rfl, rfl⟩
  | case2 place crossed value target v h ih =>
    have lt := View.open_lt_of_landing? h
    left
    rcases ih with ih | ih <;> omega

theorem measure_descend {n : Node} {s : Segment} {v : Value} (h : sizeOf v < sizeOf n.value) :
    Less (n.descend s v).measure n.measure := by
  obtain ⟨value, origin⟩ := n
  cases origin with
  | none => exact Prod.Lex.right _ h
  | some o =>
    obtain ⟨view, place, crossed⟩ := o
    have le := View.open_child_le view place s crossed
    show Less (enter view _ crossed v).measure ((view.openEdges (place :: crossed)).length, _)
    rcases openCount_enter view ⟨place.document, place.path.child s⟩ crossed v with lt | ⟨eq, hv⟩
    · exact Prod.Lex.left _ _ (Nat.lt_of_lt_of_le lt le)
    · rcases Nat.lt_or_eq_of_le le with lt | eq'
      · exact Prod.Lex.left _ _ (by rw [eq]; exact lt)
      · have : (enter view ⟨place.document, place.path.child s⟩ crossed v).measure
            = ((view.openEdges (place :: crossed)).length, sizeOf v) := by
          simp only [measure, eq, eq', hv]
        rw [this]
        exact Prod.Lex.right _ h

/-- Every child is smaller. -/
theorem measure_lt_of_mem_children {n c : Node} {s : Segment} (h : (s, c) ∈ n.children) :
    Less c.measure n.measure := by
  simp only [children, List.mem_map, Prod.mk.injEq] at h
  obtain ⟨⟨t, v⟩, hm, rfl, rfl⟩ := h
  exact measure_descend (Value.sizeOf_lt_of_mem_children hm)

theorem Less.trans {a b c : Nat × Nat} (h : Less a b) (h' : Less b c) : Less a c := by
  rcases h with ⟨_, _, h⟩ | ⟨_, h⟩
  · rcases h' with ⟨_, _, h'⟩ | ⟨_, h'⟩
    · exact Prod.Lex.left _ _ (Nat.lt_trans h h')
    · exact Prod.Lex.left _ _ h
  · rcases h' with ⟨_, _, h'⟩ | ⟨_, h'⟩
    · exact Prod.Lex.left _ _ h'
    · exact Prod.Lex.right _ (Nat.lt_trans h h')

theorem measure_lt_of_child? {n c : Node} {s : Segment} (h : n.child? s = some c) :
    Less c.measure n.measure := by
  simp only [child?, Option.map_eq_some_iff] at h
  obtain ⟨v, hv, rfl⟩ := h
  exact measure_descend (Value.sizeOf_lt_of_child? hv)

theorem measure_lt_of_mem_members {n c : Node} {k : String} (h : (k, c) ∈ n.members) :
    Less c.measure n.measure := by
  obtain ⟨v, o⟩ := n
  cases v with
  | object ms => exact measure_lt_of_mem_children (s := .key k) (by
      simp only [members, Value.members?, Option.getD_some, List.mem_map, Prod.mk.injEq] at h
      obtain ⟨m, hm, rfl, rfl⟩ := h
      exact List.mem_map.2 ⟨(.key m.1, m.2), List.mem_map.2 ⟨m, hm, rfl⟩, rfl⟩)
  | _ => simp [members, Value.members?] at h

theorem measure_lt_of_mem_elements {n c : Node} (h : c ∈ n.elements) :
    Less c.measure n.measure := by
  obtain ⟨v, o⟩ := n
  cases v with
  | array items =>
    simp only [elements, Value.items?, Option.getD_some, List.mem_map] at h
    obtain ⟨e, he, rfl⟩ := h
    exact measure_lt_of_mem_children (s := .index e.2)
      (List.mem_map.2 ⟨(.index e.2, e.1), List.mem_map.2 ⟨e, he, rfl⟩, rfl⟩)
  | _ => simp [elements, Value.items?] at h

instance : WellFoundedRelation Node where
  rel n m := Less n.measure m.measure
  wf := InvImage.wf _ (Prod.lex ⟨_, Nat.lt_wfRel.wf⟩ ⟨_, Nat.lt_wfRel.wf⟩).wf

/-- A node that stands at `p` and everything below it, each with its path, a node before its
children. -/
def preorder (p : Path) (n : Node) : List (Path × Node) :=
  (p, n) :: n.children.attach.flatMap fun c => preorder (p.child c.1.1) c.1.2
termination_by n
decreasing_by exact measure_lt_of_mem_children c.2

end Node

namespace View

def node (v : View) : Node :=
  Node.enter v ⟨v.root.id, []⟩ [] v.root.document.value

def nodeAt? (v : View) (p : Path) : Option Node :=
  v.node.at? p

end View

end ApiLint
