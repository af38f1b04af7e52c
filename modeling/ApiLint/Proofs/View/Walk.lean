import ApiLint.Proofs.Traversal
import ApiLint.Query.Eval

/-!
# Walks through a view end

A view follows references on access, and references may lead in circles.  `View.Walk` writes down a walk
from the root step by step: `down` takes a step in the tree at hand, and `cross` crosses the reference
that stands where the walk is.  The main facts:

* `Walk.nodup`: no target is landed on twice.  A target that was landed on encloses the place of the walk
  or a place where a reference was crossed later, for the walk goes on below it (`Walk.encloses`), and
  such a target is not followed.
* `Walk.length_add_open_le`: every crossing closes an edge, so that there are at most as many crossings as
  edges.
* `Walk.length_add_height_le`: between two crossings a walk takes at most as many steps as a document is
  high, which bounds the length of every path (`View.lengthBound`).

`Node.enterWithin` and `Node.visitWithin` are the loop over a chain of references and the recursion over
a node and what is below it, given up when a number of rounds or levels is used up.  The bounds above are
enough for both (`enterWithin_eq`, `Reaches.visitWithin_eq`).  All of it is put together in
`View.isFiniteTree`.
-/

namespace ApiLint

/-! ### Heights -/

namespace Value

mutual

def height : Value → Nat
  | array items => itemsHeight items
  | object members => membersHeight members
  | _ => 0

/-- One more than the largest height of the elements; zero without elements. -/
def itemsHeight : List Value → Nat
  | [] => 0
  | v :: vs => max (v.height + 1) (itemsHeight vs)

def membersHeight : List (String × Value) → Nat
  | [] => 0
  | (_, v) :: ms => max (v.height + 1) (membersHeight ms)

end

theorem height_lt_of_mem_items {vs : List Value} {v : Value} (h : v ∈ vs) :
    v.height < itemsHeight vs := by
  induction vs with
  | nil => exact absurd h (by simp)
  | cons w ws ih =>
    rw [itemsHeight]
    rcases List.mem_cons.mp h with rfl | h
    · omega
    · have := ih h
      omega

theorem height_lt_of_mem_members {ms : List (String × Value)} {m : String × Value} (h : m ∈ ms) :
    m.2.height < membersHeight ms := by
  induction ms with
  | nil => exact absurd h (by simp)
  | cons n ms ih =>
    obtain ⟨k, w⟩ := n
    rw [membersHeight]
    rcases List.mem_cons.mp h with rfl | h
    · show w.height < _
      omega
    · have := ih h
      omega

theorem height_lt_of_mem_children {v c : Value} {s : Segment} (h : (s, c) ∈ v.children) :
    c.height < v.height := by
  cases v with
  | array items =>
    obtain ⟨e, he, heq⟩ := List.mem_map.mp h
    obtain ⟨-, rfl⟩ := Prod.mk.inj heq
    rw [height]
    exact height_lt_of_mem_items (List.fst_mem_of_mem_zipIdx he)
  | object members =>
    obtain ⟨m, hm, heq⟩ := List.mem_map.mp h
    obtain ⟨-, rfl⟩ := Prod.mk.inj heq
    rw [height]
    exact height_lt_of_mem_members hm
  | _ => exact absurd h (by simp [children])

theorem height_le_of_get? {v w : Value} {p : Path} (h : v.get? p = some w) :
    w.height ≤ v.height := by
  induction p generalizing v with
  | nil =>
    rw [get?_nil] at h
    exact Nat.le_of_eq (congrArg height (Option.some.inj h).symm)
  | cons s p ih =>
    rw [get?_cons, Option.bind_eq_some_iff] at h
    obtain ⟨c, hc, hw⟩ := h
    have hlt := height_lt_of_mem_children (mem_children_of_child? hc)
    exact Nat.le_trans (ih hw) (Nat.le_of_lt hlt)

end Value

namespace View

def maxHeight (v : View) : Nat :=
  (v.documents.map fun d => d.document.value.height).foldr max 0

/-- A number that no path of the view is longer than. -/
def lengthBound (v : View) : Nat :=
  (v.edges.length + 1) * v.maxHeight

theorem le_foldr_max {xs : List Nat} {x : Nat} (h : x ∈ xs) : x ≤ xs.foldr max 0 := by
  induction xs with
  | nil => exact absurd h (by simp)
  | cons y ys ih =>
    rw [List.foldr_cons]
    rcases List.mem_cons.mp h with rfl | h
    · exact Nat.le_max_left _ _
    · exact Nat.le_trans (ih h) (Nat.le_max_right _ _)

theorem height_le_maxHeight {v : View} {d : Loaded} (h : d ∈ v.documents) :
    d.document.value.height ≤ v.maxHeight :=
  le_foldr_max (List.mem_map.mpr ⟨d, h, rfl⟩)

theorem height_le_of_valueAt? {v : View} {l : Location} {w : Value} (h : v.valueAt? l = some w) :
    w.height ≤ v.maxHeight := by
  rw [valueAt?, Option.bind_eq_some_iff] at h
  obtain ⟨d, hd, hw⟩ := h
  exact Nat.le_trans (Value.height_le_of_get? hw) (height_le_maxHeight (List.mem_of_find?_eq_some hd))

theorem valueAt?_of_landing? {v : View} {place t : Location} {crossed : List Location}
    {value w : Value} (h : v.landing? place crossed value = some (t, w)) : v.valueAt? t = some w := by
  rw [landing?] at h
  split at h
  · split at h
    · exact absurd h (by simp)
    · obtain ⟨u, hu, heq⟩ := Option.map_eq_some_iff.mp h
      obtain ⟨rfl, rfl⟩ := Prod.mk.inj heq
      exact hu
  · exact absurd h (by simp)

/-- What is landed on encloses nothing of the trail. -/
theorem encloses_of_landing? {v : View} {place t : Location} {crossed : List Location}
    {value w : Value} (h : v.landing? place crossed value = some (t, w)) :
    (place :: crossed).any t.encloses = false := by
  rw [landing?] at h
  split at h
  · split at h
    · exact absurd h (by simp)
    · next hopen =>
      obtain ⟨u, _, heq⟩ := Option.map_eq_some_iff.mp h
      obtain ⟨rfl, _⟩ := Prod.mk.inj heq
      exact Bool.eq_false_iff.mpr hopen
  · exact absurd h (by simp)

/-! ### Walks -/

/-- `v.Walk targets path place crossed value`: a walk from the root that took the steps `path` has come to
`value`, which stands at `place`.  On the way it crossed references at the places `crossed` and landed on
`targets`, the last ones first. -/
inductive Walk (v : View) : List Location → Path → Location → List Location → Value → Prop
  | root : Walk v [] [] ⟨v.root.id, []⟩ [] v.root.document.value
  | cross {targets : List Location} {path : Path} {place t : Location} {crossed : List Location}
      {value w : Value} : Walk v targets path place crossed value →
      v.landing? place crossed value = some (t, w) →
      Walk v (t :: targets) path t (place :: crossed) w
  | down {targets : List Location} {path : Path} {place : Location} {crossed : List Location}
      {value w : Value} {s : Segment} : Walk v targets path place crossed value →
      v.landing? place crossed value = none → (s, w) ∈ value.children →
      Walk v targets (path.child s) ⟨place.document, place.path.child s⟩ crossed w

namespace Walk

variable {v : View} {targets : List Location} {path : Path} {place : Location}
  {crossed : List Location} {value : Value}

/-- Every target that was landed on encloses a part of the trail. -/
theorem encloses (h : v.Walk targets path place crossed value) :
    ∀ t ∈ targets, (place :: crossed).any t.encloses = true := by
  induction h with
  | root => intro t ht; exact absurd ht (by simp)
  | cross _ _ ih =>
    intro u hu
    rcases List.mem_cons.mp hu with rfl | hu
    · rw [List.any_cons, Location.encloses_self, Bool.true_or]
    · rw [List.any_cons, ih u hu, Bool.or_true]
  | @down targets path place crossed value w s _ _ _ ih =>
    intro u hu
    have hany := ih u hu
    rw [List.any_cons, Bool.or_eq_true] at hany ⊢
    -- what encloses the place encloses the places below it, and the rest of the trail stays
    rcases hany with hplace | hcrossed
    · exact Or.inl (Location.encloses_child hplace s)
    · exact Or.inr hcrossed

/-- **No target is landed on twice.** -/
theorem nodup (h : v.Walk targets path place crossed value) : targets.Nodup := by
  induction h with
  | root => exact List.nodup_nil
  | @cross targets path place t crossed value w h hland ih =>
    refine List.nodup_cons.mpr ⟨?_, ih⟩
    -- a target landed on before encloses the trail, and then it would not be followed
    intro ht
    have hany := h.encloses t ht
    rw [encloses_of_landing? hland] at hany
    exact absurd hany (by decide)
  | down _ _ _ ih => exact ih

/-- Every crossing closes an edge. -/
theorem length_add_open_le (h : v.Walk targets path place crossed value) :
    targets.length + (v.openEdges (place :: crossed)).length ≤ v.edges.length := by
  induction h with
  | root =>
    rw [List.length_nil, Nat.zero_add]
    exact List.length_filter_le _ _
  | cross _ hland ih =>
    have hlt := open_lt_of_landing? hland
    rw [List.length_cons]
    omega
  | @down targets path place crossed value w s _ _ _ ih =>
    have hle := open_child_le v place s crossed
    omega

theorem length_le (h : v.Walk targets path place crossed value) :
    targets.length ≤ v.edges.length := by
  have := h.length_add_open_le
  omega

/-- Every crossing allows for as many steps as the highest document is high. -/
theorem length_add_height_le (h : v.Walk targets path place crossed value) :
    path.length + value.height ≤ (targets.length + 1) * v.maxHeight := by
  induction h with
  | root =>
    have := height_le_maxHeight (v := v) (d := v.root) (List.mem_cons_self ..)
    rw [List.length_nil, List.length_nil, Nat.zero_add, Nat.zero_add, Nat.one_mul]
    exact this
  | cross _ hland ih =>
    -- the crossing pays for the height of what is landed on
    have := height_le_of_valueAt? (valueAt?_of_landing? hland)
    rw [List.length_cons, Nat.succ_mul]
    omega
  | @down targets path place crossed value w s _ _ hmem ih =>
    have hlt := Value.height_lt_of_mem_children hmem
    rw [Path.child, List.length_append, List.length_singleton]
    omega

/-- **Paths are bounded by a number that is computed from the documents.** -/
theorem path_length_le (h : v.Walk targets path place crossed value) :
    path.length ≤ v.lengthBound := by
  have hsteps := h.length_add_height_le
  have hcrossings : (targets.length + 1) * v.maxHeight ≤ v.lengthBound :=
    Nat.mul_le_mul_right _ (Nat.succ_le_succ h.length_le)
  omega

end Walk

end View

/-! ### Paths and nodes -/

namespace Node

theorem at?_append (n : Node) (p q : Path) : n.at? (p ++ q) = (n.at? p).bind fun m => m.at? q := by
  induction p generalizing n with
  | nil => rfl
  | cons s p ih =>
    rw [List.cons_append, at?, at?]
    cases n.child? s with
    | none => rfl
    | some c => exact ih c

theorem at?_child {n m : Node} {p : Path} (h : n.at? p = some m) (s : Segment) : n.at? (p.child s) = m.child? s := by
  rw [Path.child, at?_append, h, Option.bind_some, at?]
  cases m.child? s <;> rfl

/-- A path leads from a raw node to what it leads to in the value. -/
theorem at?_raw (v : Value) (p : Path) : (raw v).at? p = (v.get? p).map raw := by
  induction p generalizing v with
  | nil => rfl
  | cons s p ih =>
    rw [at?, child?, Value.get?_cons]
    show ((v.child? s).map raw).bind _ = _
    cases v.child? s with
    | none => rfl
    | some c => exact ih c

theorem mem_children_of_child? {n c : Node} {s : Segment} (h : n.child? s = some c) : (s, c) ∈ n.children := by
  obtain ⟨w, hw, rfl⟩ := Option.map_eq_some_iff.mp h
  exact List.mem_map.mpr ⟨(s, w), Value.mem_children_of_child? hw, rfl⟩

end Node

namespace View

/-! ### Nodes that are reached -/

/-- `v.Reaches p n`: a walk that took the steps `p`, and crossed all that was to be crossed at its end, is
at the node `n`. -/
def Reaches (v : View) (p : Path) (n : Node) : Prop :=
  ∃ targets place crossed value, v.Walk targets p place crossed value ∧
    v.landing? place crossed value = none ∧ n = ⟨value, some ⟨v, place, crossed⟩⟩

/-- Entering a place crosses what is to be crossed there. -/
theorem Walk.reaches_enter {v : View} {targets : List Location} {p : Path} {place : Location}
    {crossed : List Location} {value : Value} (h : v.Walk targets p place crossed value) :
    v.Reaches p (Node.enter v place crossed value) := by
  fun_induction Node.enter v place crossed value generalizing targets with
  | case1 place crossed value hstay => exact ⟨targets, place, crossed, value, h, hstay, rfl⟩
  | case2 place crossed value t w hland ih => exact ih (h.cross hland)

theorem reaches_node (v : View) : v.Reaches [] v.node :=
  Walk.root.reaches_enter

namespace Reaches

variable {v : View} {p : Path} {n c : Node} {s : Segment}

theorem of_mem_children (h : v.Reaches p n) (hc : (s, c) ∈ n.children) :
    v.Reaches (p.child s) c := by
  obtain ⟨targets, place, crossed, value, hwalk, hstay, rfl⟩ := h
  obtain ⟨⟨r, w⟩, hw, heq⟩ := List.mem_map.mp hc
  obtain ⟨rfl, rfl⟩ := Prod.mk.inj heq
  exact (hwalk.down hstay hw).reaches_enter

theorem of_child? (h : v.Reaches p n) (hc : n.child? s = some c) : v.Reaches (p.child s) c := by
  obtain ⟨w, hw, rfl⟩ := Option.map_eq_some_iff.mp hc
  refine h.of_mem_children (List.mem_map.mpr ⟨(s, w), ?_, rfl⟩)
  exact Value.mem_children_of_child? hw

theorem of_at? {q : Path} (h : v.Reaches p n) (hq : n.at? q = some c) : v.Reaches (p ++ q) c := by
  induction q generalizing p n with
  | nil =>
    rw [Node.at?] at hq
    rw [List.append_nil, ← Option.some.inj hq]
    exact h
  | cons s q ih =>
    rw [Node.at?, Option.bind_eq_some_iff] at hq
    obtain ⟨d, hd, hq⟩ := hq
    have := ih (h.of_child? hd) hq
    rwa [Path.child, List.append_assoc, List.singleton_append] at this

theorem length_le (h : v.Reaches p n) : p.length ≤ v.lengthBound := by
  obtain ⟨_, _, _, _, hwalk, _, _⟩ := h
  exact hwalk.path_length_le

end Reaches

theorem reaches_of_nodeAt? {v : View} {p : Path} {n : Node} (h : v.nodeAt? p = some n) :
    v.Reaches p n := by
  have := v.reaches_node.of_at? h
  rwa [List.nil_append] at this

end View

/-! ### Loops and recursions that are given up -/

namespace Node

/-- The loop of `Node.enter`, given up when there is more to cross after `rounds` crossings. -/
def enterWithin (view : View) (rounds : Nat) (place : Location) (crossed : List Location)
    (value : Value) : Option Node :=
  match view.landing? place crossed value, rounds with
  | none, _ => some ⟨value, some ⟨view, place, crossed⟩⟩
  | some _, 0 => none
  | some (target, w), rounds + 1 => enterWithin view rounds target (place :: crossed) w

/-- What `f` says of a node and of everything below it, a node before its children.  Given up when there
are more than `levels` levels. -/
def visitWithin {α : Type} (f : Path → Node → List α) : Nat → Path → Node → Option (List α)
  | 0, _, _ => none
  | levels + 1, p, n =>
    (n.children.mapM fun c => visitWithin f levels (p.child c.1) c.2).map fun below =>
      f p n ++ below.flatten

theorem enter_of_stay {view : View} {place : Location} {crossed : List Location} {value : Value}
    (h : view.landing? place crossed value = none) :
    enter view place crossed value = ⟨value, some ⟨view, place, crossed⟩⟩ := by
  rw [enter]
  split
  · rfl
  · next hland =>
    rw [h] at hland
    exact absurd hland (by simp)

theorem enter_of_landing {view : View} {place t : Location} {crossed : List Location}
    {value w : Value} (h : view.landing? place crossed value = some (t, w)) :
    enter view place crossed value = enter view t (place :: crossed) w := by
  rw [enter]
  split
  · next hstay =>
    rw [h] at hstay
    exact absurd hstay (by simp)
  · next hland =>
    rw [h] at hland
    obtain ⟨rfl, rfl⟩ := Prod.mk.inj (Option.some.inj hland)
    rfl

/-- A chain of references ends after as many crossings as edges are open. -/
theorem enterWithin_eq (view : View) (rounds : Nat) (place : Location) (crossed : List Location)
    (value : Value) (h : (view.openEdges (place :: crossed)).length ≤ rounds) :
    enterWithin view rounds place crossed value = some (enter view place crossed value) := by
  induction rounds generalizing place crossed value with
  | zero =>
    cases hland : view.landing? place crossed value with
    | none =>
      unfold enterWithin
      rw [enter_of_stay hland, hland]
    | some t =>
      have hlt := View.open_lt_of_landing? (t := t.1) (w := t.2) hland
      omega
  | succ rounds ih =>
    cases hland : view.landing? place crossed value with
    | none =>
      unfold enterWithin
      rw [enter_of_stay hland, hland]
    | some t =>
      have hlt := View.open_lt_of_landing? (t := t.1) (w := t.2) hland
      unfold enterWithin
      rw [enter_of_landing hland, hland]
      exact ih t.1 (place :: crossed) t.2 (by omega)

theorem preorder_eq (p : Path) (n : Node) :
    n.preorder p = (p, n) :: n.children.flatMap fun c => c.2.preorder (p.child c.1) := by
  rw [preorder, List.flatMap_subtype (g := fun c => c.2.preorder (p.child c.1)) (fun _ _ => rfl),
    List.unattach_attach]

end Node

namespace View

/-- A recursion over what is below a node ends within the levels that no path of the view is below. -/
theorem Reaches.visitWithin_eq {α : Type} {v : View} (f : Path → Node → List α) {p : Path} {n : Node}
    (h : v.Reaches p n) {levels : Nat} (hlevels : v.lengthBound < p.length + levels) :
    n.visitWithin f levels p = some ((n.preorder p).flatMap fun c => f c.1 c.2) := by
  induction levels generalizing p n with
  | zero =>
    have := h.length_le
    omega
  | succ levels ih =>
    have hbelow : ∀ c ∈ n.children, c.2.visitWithin f levels (p.child c.1)
        = some ((c.2.preorder (p.child c.1)).flatMap fun d => f d.1 d.2) := by
      intro c hc
      refine ih (h.of_mem_children (s := c.1) hc) ?_
      rw [Path.child, List.length_append, List.length_singleton]
      omega
    rw [Node.visitWithin, mapM_eq_some_map hbelow, Node.preorder_eq, List.flatMap_cons,
      List.flatMap_assoc]
    rfl

/-- A view is a finite tree: chains of references end, no walk lands on a target twice, and there is a
number, computed from the documents, that bounds every path and with it every recursion over what is
below a node. -/
structure IsFiniteTree (v : View) : Prop where
  /-- The loop over a chain of references ends at every node. -/
  enters : ∀ place crossed value, Node.enterWithin v v.edges.length place crossed value
    = some (Node.enter v place crossed value)
  /-- A walk leads to every node. -/
  walks : ∀ p n, v.nodeAt? p = some n → ∃ targets place crossed value,
    v.Walk targets p place crossed value ∧ n = ⟨value, some ⟨v, place, crossed⟩⟩
  /-- A walk lands on no target twice, and crosses at most as many references as there are edges. -/
  crossings : ∀ targets p place crossed value, v.Walk targets p place crossed value →
    targets.Nodup ∧ targets.length ≤ v.edges.length
  /-- Paths are bounded. -/
  paths : ∀ p n, v.nodeAt? p = some n → p.length ≤ v.lengthBound
  /-- Walking over all children of children from a node ends. -/
  visits : ∀ p n, v.nodeAt? p = some n →
    n.visitWithin (fun q m => [(q, m)]) (v.lengthBound + 1) p = some (n.preorder p)
  /-- A step of a query that descends from a node ends. -/
  descents : ∀ selectors p n, v.nodeAt? p = some n →
    n.visitWithin (fun q m => Query.select selectors ⟨q, m⟩) (v.lengthBound + 1) p
      = some (Query.Step.apply v.node [⟨p, n⟩] (.descendant selectors))

/-- **Every view is a finite tree**, whatever circles its references form. -/
theorem isFiniteTree (v : View) : v.IsFiniteTree where
  enters := by
    intro place crossed value
    exact Node.enterWithin_eq v _ place crossed value (List.length_filter_le _ _)
  walks := by
    intro p n h
    obtain ⟨targets, place, crossed, value, hwalk, _, hn⟩ := reaches_of_nodeAt? h
    exact ⟨targets, place, crossed, value, hwalk, hn⟩
  crossings := fun _ _ _ _ _ h => ⟨h.nodup, h.length_le⟩
  paths := fun _ _ h => (reaches_of_nodeAt? h).length_le
  visits := by
    intro p n h
    rw [(reaches_of_nodeAt? h).visitWithin_eq _ (by omega)]
    simp
  descents := by
    intro selectors p n h
    rw [(reaches_of_nodeAt? h).visitWithin_eq _ (by omega)]
    simp [Query.Step.apply]

end View

end ApiLint
