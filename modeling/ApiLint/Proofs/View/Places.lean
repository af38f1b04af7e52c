import ApiLint.Proofs.DocumentOrder
import ApiLint.Proofs.Graph.Consistency
import ApiLint.Proofs.View.Walk

/-!
# Nodes of a view stand where they were written

The place of a node is where its value was written: a walk keeps the value and the place in step, whether it goes down or
crosses a reference (`View.Walk.valueAt?_place`).

In an object that repeats a name, a place leads to one of the members only, and a segment to one of the children that are
listed with it.  No object of a document that was read does (`View.IsRead.hasDistinctNames`), and neither does any that a
walk through a view of such documents comes to (`Node.HasDistinctNames`).
-/

namespace ApiLint

def View.HasDistinctNames (v : View) : Prop :=
  ∀ d ∈ v.documents, d.document.value.HasDistinctNames

def View.IsRead (v : View) : Prop :=
  ∀ d ∈ v.documents, Document.read d.id d.document.content = .ok d.document

theorem View.IsRead.hasDistinctNames {v : View} (h : v.IsRead) : v.HasDistinctNames := by
  intro d hd
  obtain ⟨tree, htree, heq⟩ := Document.exists_of_read (h d hd)
  rw [heq]
  exact Json.hasDistinctNames_of_read htree

theorem View.HasDistinctNames.of_valueAt? {v : View} (h : v.HasDistinctNames) {l : Location} {w : Value}
    (hw : v.valueAt? l = some w) : w.HasDistinctNames := by
  obtain ⟨d, hd, hget⟩ := Option.bind_eq_some_iff.mp hw
  exact (h d (List.mem_of_find?_eq_some hd)).of_get? hget

/-! ### Places of a walk -/

namespace View

variable {v : View}

theorem document?_root (v : View) : v.document? v.root.id = some v.root :=
  List.find?_cons_of_pos (decide_eq_true rfl)

theorem HasDistinctNames.valueAt?_child (hv : v.HasDistinctNames) {l : Location} {w c : Value} {s : Segment}
    (hw : v.valueAt? l = some w) (hc : (s, c) ∈ w.children) :
    v.valueAt? ⟨l.document, l.path.child s⟩ = some c := by
  have hchild := (hv.of_valueAt? hw).child?_of_mem_children hc
  obtain ⟨d, hd, hl⟩ := Option.bind_eq_some_iff.mp hw
  rw [Document.valueAt?] at hl
  rw [valueAt?, hd, Option.bind_some, Document.valueAt?, Path.child, Value.get?_append, hl, Option.bind_some,
    Value.get?_cons, hchild]
  rfl

/-- **A walk is at the value that was written at its place.** -/
theorem Walk.valueAt?_place {targets : List Location} {path : Path} {place : Location} {crossed : List Location}
    {value : Value} (h : v.Walk targets path place crossed value) (hv : v.HasDistinctNames) :
    v.valueAt? place = some value := by
  induction h with
  | root =>
    rw [valueAt?, v.document?_root]
    rfl
  | cross _ hland => exact valueAt?_of_landing? hland
  | down _ _ hc ih => exact hv.valueAt?_child ih hc

end View

/-! ### Nodes without repeated names -/

namespace Node

/-- No object in the value repeats a name, and neither does one that a walk through the view may come to. -/
structure HasDistinctNames (n : Node) : Prop where
  value : n.value.HasDistinctNames
  view : ∀ o, n.origin = some o → o.view.HasDistinctNames

theorem hasDistinctNames_raw {v : Value} (h : v.HasDistinctNames) : (raw v).HasDistinctNames :=
  ⟨h, fun _ ho => nomatch ho⟩

theorem hasDistinctNames_enter {view : View} (h : view.HasDistinctNames) (place : Location) (crossed : List Location)
    {value : Value} (hvalue : value.HasDistinctNames) : (enter view place crossed value).HasDistinctNames := by
  fun_induction enter view place crossed value with
  | case1 place crossed value hstay =>
    refine ⟨hvalue, fun o ho => ?_⟩
    rw [← Option.some.inj ho]
    exact h
  | case2 place crossed value t w hland ih => exact ih (h.of_valueAt? (View.valueAt?_of_landing? hland))

namespace HasDistinctNames

variable {n c : Node} {s : Segment}

/-- A segment leads to the child that is listed with it. -/
theorem child?_of_mem_children (h : n.HasDistinctNames) (hc : (s, c) ∈ n.children) : n.child? s = some c := by
  obtain ⟨⟨t, w⟩, hw, heq⟩ := List.mem_map.mp hc
  obtain ⟨rfl, rfl⟩ := Prod.mk.inj heq
  rw [child?, h.value.child?_of_mem_children hw, Option.map_some]

theorem mem_children_iff (h : n.HasDistinctNames) : (s, c) ∈ n.children ↔ n.child? s = some c :=
  ⟨h.child?_of_mem_children, mem_children_of_child?⟩

theorem of_child? (h : n.HasDistinctNames) (hc : n.child? s = some c) : c.HasDistinctNames := by
  obtain ⟨w, hw, rfl⟩ := Option.map_eq_some_iff.mp hc
  have hvalue := h.value.of_mem_children (Value.mem_children_of_child? hw)
  rw [descend]
  cases ho : n.origin with
  | none => exact hasDistinctNames_raw hvalue
  | some o => exact hasDistinctNames_enter (h.view o ho) _ _ hvalue

theorem of_at? {p : Path} (h : n.HasDistinctNames) (hc : n.at? p = some c) : c.HasDistinctNames := by
  induction p generalizing n with
  | nil =>
    rw [at?] at hc
    rwa [← Option.some.inj hc]
  | cons s p ih =>
    obtain ⟨d, hd, hc⟩ := Option.bind_eq_some_iff.mp hc
    exact ih (h.of_child? hd) hc

/-- What is listed below a node is where its path leads from the root. -/
theorem at?_of_mem_preorder {root n : Node} {p : Path} {c : Path × Node} (h : root.HasDistinctNames)
    (hn : root.at? p = some n) (hc : c ∈ n.preorder p) : root.at? c.1 = some c.2 := by
  rw [preorder_eq] at hc
  rcases List.mem_cons.mp hc with rfl | hc
  · exact hn
  · obtain ⟨⟨s, d⟩, hd, hc⟩ := List.mem_flatMap.mp hc
    have hchild := (h.of_at? hn).child?_of_mem_children hd
    exact h.at?_of_mem_preorder ((at?_child hn s).trans hchild) hc
termination_by n
decreasing_by exact measure_lt_of_mem_children hd

end HasDistinctNames

end Node

theorem View.HasDistinctNames.node {v : View} (h : v.HasDistinctNames) : v.node.HasDistinctNames :=
  Node.hasDistinctNames_enter h _ _ (h v.root (List.mem_cons_self ..))

end ApiLint
