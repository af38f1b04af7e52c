import ApiLint.Proofs.View.Walk
import Mathlib.Data.List.Basic

/-!
# A view is its inlined tree

`View.inline` writes a view out as one value: every reference object that may be followed is replaced by
its target, written out in turn.  What may not be followed, since its target encloses the trail, stays as
it is.  Queries cannot tell the two apart: run over the view they come to the same paths in the same order
as run over the written-out value, and what they come to, written out, is what they come to there
(`View.run_inlined`).

The proof compares a node of the view with the raw node of its written-out value, `Node.flat`.  Steps down
commute with `flat` (`Settled.child?_flat`, `Settled.children_flat`), and so does everything that is made
of them: walking a path, listing what is below, picking children, a step of a query.  In filters a node
gives its value as written, with the references inside it not followed.  No comparison looks that deep:
`Value.outline` forgets what is inside arrays and objects, and a filter depends on outlines only.
-/

namespace ApiLint

/-! ### Writing out a view -/

namespace View

/-- The value that stands at `place` after references were crossed at the places `crossed`, with every
reference in it that may be followed replaced by its target. -/
def inline (v : View) (place : Location) (crossed : List Location) (value : Value) : Value :=
  match _h : v.landing? place crossed value with
  | some (target, w) => inline v target (place :: crossed) w
  | none =>
    match value with
    | .array items => .array <| items.zipIdx.attach.map fun c =>
        inline v ⟨place.document, place.path.child (.index c.1.2)⟩ crossed c.1.1
    | .object members => .object <| members.attach.map fun m =>
        (m.1.1, inline v ⟨place.document, place.path.child (.key m.1.1)⟩ crossed m.1.2)
    | leaf => leaf
termination_by ((v.openEdges (place :: crossed)).length, sizeOf value)
decreasing_by
  · exact Prod.Lex.left _ _ (open_lt_of_landing? _h)
  · have hlt : sizeOf c.1.1 < sizeOf (Value.array items) :=
      Value.sizeOf_lt_of_mem_children (s := .index c.1.2) (List.mem_map.mpr ⟨c.1, c.2, rfl⟩)
    exact lex_of_le (open_child_le v place _ crossed) hlt
  · have hlt : sizeOf m.1.2 < sizeOf (Value.object members) :=
      Value.sizeOf_lt_of_mem_children (s := .key m.1.1) (List.mem_map.mpr ⟨m.1, m.2, rfl⟩)
    exact lex_of_le (open_child_le v place _ crossed) hlt

def inlined (v : View) : Value :=
  v.inline ⟨v.root.id, []⟩ [] v.root.document.value

section

variable {v : View} {place : Location} {crossed : List Location} {value : Value}

theorem inline_of_landing {t : Location} {w : Value}
    (h : v.landing? place crossed value = some (t, w)) :
    v.inline place crossed value = v.inline t (place :: crossed) w := by
  rw [inline]
  split
  · next hland =>
    rw [h] at hland
    obtain ⟨rfl, rfl⟩ := Prod.mk.inj (Option.some.inj hland)
    rfl
  · next hstay =>
    rw [h] at hstay
    exact absurd hstay (by simp)

theorem inline_array {items : List Value} (h : v.landing? place crossed (.array items) = none) :
    v.inline place crossed (.array items) = .array (items.zipIdx.map fun c =>
      v.inline ⟨place.document, place.path.child (.index c.2)⟩ crossed c.1) := by
  rw [inline]
  split
  · next hland =>
    rw [h] at hland
    exact absurd hland (by simp)
  · simp only [List.map_attach_eq_pmap, List.pmap_eq_map]

theorem inline_object {members : List (String × Value)}
    (h : v.landing? place crossed (.object members) = none) :
    v.inline place crossed (.object members) = .object (members.map fun m =>
      (m.1, v.inline ⟨place.document, place.path.child (.key m.1)⟩ crossed m.2)) := by
  rw [inline]
  split
  · next hland =>
    rw [h] at hland
    exact absurd hland (by simp)
  · simp only [List.map_attach_eq_pmap, List.pmap_eq_map]

theorem inline_leaf (h : v.landing? place crossed value = none) (harray : ∀ items, value ≠ .array items)
    (hobject : ∀ members, value ≠ .object members) : v.inline place crossed value = value := by
  rw [inline]
  split
  · next hland =>
    rw [h] at hland
    exact absurd hland (by simp)
  · split
    · exact absurd rfl (harray _)
    · exact absurd rfl (hobject _)
    · rfl

/-- The children of a written-out value are the children, written out. -/
theorem children_inline (h : v.landing? place crossed value = none) :
    (v.inline place crossed value).children = value.children.map fun c =>
      (c.1, v.inline ⟨place.document, place.path.child c.1⟩ crossed c.2) := by
  cases value with
  | array items =>
    rw [inline_array h, Value.children, Value.children]
    refine List.ext_getElem? fun i => ?_
    cases hi : items[i]? <;> simp [List.getElem?_zipIdx, hi]
  | object members =>
    rw [inline_object h, Value.children, Value.children, List.map_map, List.map_map]
    rfl
  | _ =>
    rw [inline_leaf h (by simp) (by simp)]
    rfl

/-- The child of a written-out value is the child, written out. -/
theorem child?_inline (h : v.landing? place crossed value = none) (s : Segment) :
    (v.inline place crossed value).child? s = (value.child? s).map fun w =>
      v.inline ⟨place.document, place.path.child s⟩ crossed w := by
  cases value with
  | array items =>
    rw [inline_array h]
    cases s with
    | key k => rfl
    | index i =>
      rw [Value.child?, Value.child?, Value.element?, Value.element?, List.getElem?_map,
        List.getElem?_zipIdx, Option.map_map, Nat.zero_add]
      rfl
  | object members =>
    rw [inline_object h]
    cases s with
    | key k =>
      rw [Value.child?, Value.child?, Value.member?, Value.member?]
      exact lookup_map (fun k w => v.inline ⟨place.document, place.path.child (.key k)⟩ crossed w) k
        members
    | index i => rfl
  | _ =>
    rw [inline_leaf h (by simp) (by simp)]
    cases s <;> rfl

end

end View

/-! ### Outlines -/

namespace Value

/-- A value without what is inside arrays and objects, all but the length of an array. -/
def outline : Value → Value
  | array items => array (items.map fun _ => null)
  | object _ => object []
  | leaf => leaf

end Value

namespace View

theorem outline_inline {v : View} {place : Location} {crossed : List Location} {value : Value}
    (h : v.landing? place crossed value = none) :
    (v.inline place crossed value).outline = value.outline := by
  cases value with
  | array items =>
    rw [inline_array h, Value.outline, Value.outline, List.map_map]
    congr 1
    refine List.ext_getElem? fun i => ?_
    rw [List.getElem?_map, List.getElem?_zipIdx, List.getElem?_map]
    cases items[i]? <;> rfl
  | object members =>
    rw [inline_object h]
    rfl
  | _ => rw [inline_leaf h (by simp) (by simp)]

end View

namespace Query

/-! ### Filters see outlines only -/

theorem truthy_outline (a : Option Value) : truthy (a.map Value.outline) = truthy a := by
  cases a with
  | none => rfl
  | some v => cases v <;> rfl

theorem strictEqual_outline (a b : Option Value) :
    strictEqual (a.map Value.outline) (b.map Value.outline) = strictEqual a b := by
  cases a with
  | none => cases b <;> rfl
  | some v =>
    cases b with
    | none => cases v <;> rfl
    | some w => cases v <;> cases w <;> rfl

theorem looseEqual_outline (a b : Option Value) :
    looseEqual (a.map Value.outline) (b.map Value.outline) = looseEqual a b := by
  cases a with
  | none =>
    cases b with
    | none => rfl
    | some w => cases w <;> rfl
  | some v =>
    cases b with
    | none => cases v <;> rfl
    | some w => cases v <;> cases w <;> rfl

theorem order?_outline (a b : Option Value) :
    order? (a.map Value.outline) (b.map Value.outline) = order? a b := by
  cases a with
  | none => cases b <;> rfl
  | some v =>
    cases b with
    | none => cases v <;> rfl
    | some w => cases v <;> cases w <;> rfl

theorem holds_outline (op : Comparison) (a b : Option Value) :
    op.holds (a.map Value.outline) (b.map Value.outline) = op.holds a b := by
  cases op <;> simp only [Comparison.holds, strictEqual_outline, looseEqual_outline, order?_outline]

theorem length?_outline (v : Value) : length? v.outline = length? v := by
  cases v with
  | array items => rw [Value.outline, length?, length?, List.length_map]
  | _ => rfl

end Query

/-! ### Nodes and the raw nodes of their written-out values -/

namespace Node

/-- Nothing is left to be crossed where the node stands.  Every node that a walk comes to is settled. -/
def Settled (n : Node) : Prop :=
  ∀ o, n.origin = some o → o.view.landing? o.place o.crossed n.value = none

def inlined (n : Node) : Value :=
  match n.origin with
  | none => n.value
  | some o => o.view.inline o.place o.crossed n.value

/-- The raw node of the written-out value. -/
def flat (n : Node) : Node :=
  raw n.inlined

theorem settled_enter (view : View) (place : Location) (crossed : List Location) (value : Value) :
    (enter view place crossed value).Settled := by
  fun_induction enter view place crossed value with
  | case1 place crossed value hstay =>
    intro o ho
    rw [← Option.some.inj ho]
    exact hstay
  | case2 place crossed value t w hland ih => exact ih

theorem settled_descend (n : Node) (s : Segment) (v : Value) : (n.descend s v).Settled := by
  rw [descend]
  cases n.origin with
  | none =>
    intro o ho
    exact absurd ho (by simp [raw])
  | some o => exact settled_enter _ _ _ _

theorem settled_of_child? {n c : Node} {s : Segment} (h : n.child? s = some c) : c.Settled := by
  obtain ⟨v, _, rfl⟩ := Option.map_eq_some_iff.mp h
  exact settled_descend n s v

theorem settled_of_mem_children {n : Node} {c : Segment × Node} (h : c ∈ n.children) :
    c.2.Settled := by
  obtain ⟨v, _, rfl⟩ := List.mem_map.mp h
  exact settled_descend n v.1 v.2

theorem Settled.of_at? {n m : Node} {p : Path} (h : n.Settled) (hm : n.at? p = some m) :
    m.Settled := by
  induction p generalizing n with
  | nil =>
    rw [at?] at hm
    rw [← Option.some.inj hm]
    exact h
  | cons s p ih =>
    rw [at?, Option.bind_eq_some_iff] at hm
    obtain ⟨c, hc, hm⟩ := hm
    exact ih (settled_of_child? hc) hm

theorem Settled.of_mem_preorder {n : Node} {p : Path} {c : Path × Node} (h : n.Settled)
    (hc : c ∈ n.preorder p) : c.2.Settled := by
  rw [preorder_eq] at hc
  rcases List.mem_cons.mp hc with rfl | hc
  · exact h
  · obtain ⟨d, hd, hc⟩ := List.mem_flatMap.mp hc
    exact (settled_of_mem_children hd).of_mem_preorder hc
termination_by n
decreasing_by exact measure_lt_of_mem_children hd

/-- Entering a place and writing out is writing out what stands there. -/
theorem inlined_enter (view : View) (place : Location) (crossed : List Location) (value : Value) :
    (enter view place crossed value).inlined = view.inline place crossed value := by
  fun_induction enter view place crossed value with
  | case1 place crossed value hstay => rfl
  | case2 place crossed value t w hland ih => rw [ih, View.inline_of_landing hland]

/-- What a step below a node of a view leads to, written out. -/
theorem flat_descend {n : Node} {o : Origin} (h : n.origin = some o) (s : Segment) (v : Value) :
    (n.descend s v).flat = raw (o.view.inline ⟨o.place.document, o.place.path.child s⟩ o.crossed v) := by
  rw [descend, h, flat]
  exact congrArg raw (inlined_enter ..)

theorem value_flat {n : Node} {o : Origin} (h : n.origin = some o) :
    n.flat.value = o.view.inline o.place o.crossed n.value := by
  show n.inlined = _
  rw [inlined, h]

theorem flat_of_raw {n : Node} (h : n.origin = none) : n.flat = n := by
  obtain ⟨value, origin⟩ := n
  cases h
  rfl

theorem flat_descend_of_raw {n : Node} (h : n.origin = none) (s : Segment) (v : Value) :
    (n.descend s v).flat = n.descend s v := by
  refine flat_of_raw ?_
  rw [descend, h]
  rfl

namespace Settled

variable {n : Node}

theorem outline_inlined (h : n.Settled) : n.inlined.outline = n.value.outline := by
  rw [inlined]
  cases ho : n.origin with
  | none => rfl
  | some o => exact View.outline_inline (h o ho)

theorem child?_flat (h : n.Settled) (s : Segment) : n.flat.child? s = (n.child? s).map flat := by
  cases ho : n.origin with
  | none =>
    rw [flat_of_raw ho]
    cases hc : n.child? s with
    | none => rfl
    | some c =>
      obtain ⟨v, _, rfl⟩ := Option.map_eq_some_iff.mp hc
      rw [Option.map_some, flat_descend_of_raw ho]
  | some o =>
    rw [child?, value_flat ho, View.child?_inline (h o ho), child?, Option.map_map, Option.map_map]
    refine Option.map_congr fun v _ => ?_
    exact (flat_descend ho s v).symm

theorem children_flat (h : n.Settled) :
    n.flat.children = n.children.map fun c => (c.1, c.2.flat) := by
  cases ho : n.origin with
  | none =>
    rw [flat_of_raw ho, children, List.map_map]
    refine List.map_congr_left fun c _ => ?_
    exact congrArg (Prod.mk c.1) (flat_descend_of_raw ho c.1 c.2).symm
  | some o =>
    rw [children, value_flat ho, View.children_inline (h o ho), children, List.map_map, List.map_map]
    refine List.map_congr_left fun c _ => ?_
    exact congrArg (Prod.mk c.1) (flat_descend ho c.1 c.2).symm

theorem at?_flat (h : n.Settled) (p : Path) : n.flat.at? p = (n.at? p).map flat := by
  induction p generalizing n with
  | nil => rfl
  | cons s p ih =>
    rw [at?, at?, h.child?_flat]
    cases hc : n.child? s with
    | none => rfl
    | some c => exact ih (settled_of_child? hc)

theorem preorder_flat {n : Node} (h : n.Settled) (p : Path) :
    n.flat.preorder p = (n.preorder p).map fun c => (c.1, c.2.flat) := by
  rw [preorder_eq, preorder_eq, h.children_flat, List.flatMap_map, List.map_cons, List.map_flatMap]
  congr 1
  refine List.flatMap_congr fun c hc => ?_
  exact (settled_of_mem_children hc).preorder_flat (p.child c.1)
termination_by n
decreasing_by exact measure_lt_of_mem_children hc

end Settled

end Node

namespace Query

open Node (flat Settled)

/-! ### Filters on written-out values -/

def Accessor.segment? (a : Accessor) (v : Value) : Option Segment :=
  match a, v with
  | key k, .object _ => some (.key k)
  | index i, .array items => (position? items.length i).map .index
  | index i, .object _ => some (.key (toString i))
  | _, _ => none

theorem node?_eq_bind (a : Accessor) (n : Node) :
    a.node? n = (a.segment? n.value).bind n.child? := by
  obtain ⟨v, o⟩ := n
  cases a with
  | key k => cases v <;> rfl
  | index i =>
    cases v with
    | array items =>
      show (position? items.length i).bind _ = ((position? items.length i).map Segment.index).bind _
      rw [Option.bind_map]
      rfl
    | _ => rfl

theorem segment?_outline (a : Accessor) (v : Value) : a.segment? v.outline = a.segment? v := by
  cases a with
  | key k => cases v <;> rfl
  | index i =>
    cases v with
    | array items => rw [Value.outline, Accessor.segment?, Accessor.segment?, List.length_map]
    | _ => rfl

section

variable {n : Node}

/-- What depends on outlines only is the same of a value and of the value written out. -/
theorem congr_flat {α : Type} {f : Value → α} (hf : ∀ v, f v.outline = f v) (h : n.Settled) :
    f n.flat.value = f n.value := by
  rw [← hf n.value, ← h.outline_inlined, hf]
  rfl

theorem node?_flat (h : n.Settled) (a : Accessor) : a.node? n.flat = (a.node? n).map flat := by
  rw [node?_eq_bind, node?_eq_bind, congr_flat (segment?_outline a) h]
  cases a.segment? n.value with
  | none => rfl
  | some s => exact h.child?_flat s

theorem settled_of_node? {c : Node} {a : Accessor} (h : a.node? n = some c) : c.Settled := by
  rw [node?_eq_bind, Option.bind_eq_some_iff] at h
  obtain ⟨s, _, hc⟩ := h
  exact Node.settled_of_child? hc

/-- Member access gives values with the same outline. -/
theorem access_flat (h : n.Settled) (as : List Accessor) :
    (access n.flat as).map Value.outline = (access n as).map Value.outline := by
  have hnode : ∀ {m : Node} (a : Accessor), m.Settled →
      ((a.node? m.flat).map Node.value).map Value.outline
        = ((a.node? m).map Node.value).map Value.outline := by
    intro m a hm
    rw [node?_flat hm]
    cases hc : a.node? m with
    | none => rfl
    | some c => exact congrArg some (settled_of_node? hc).outline_inlined
  fun_induction access n as with
  | case1 n => exact congrArg some h.outline_inlined
  | case2 n l hl =>
    rw [access, if_pos rfl, congr_flat length?_outline h, hl]
  | case3 n hl =>
    rw [access, if_pos rfl, congr_flat length?_outline h, hl]
    exact hnode _ h
  | case4 n k hk =>
    rw [access, if_neg hk]
    exact hnode _ h
  | case5 n a as has ih =>
    rw [access, node?_flat h]
    · cases hc : a.node? n with
      | none => rfl
      | some c => exact ih c (settled_of_node? hc)
    · exact has

/-- A filter gives values with the same outline. -/
theorem eval_flat (h : n.Settled) (s : Segment) (e : Expr) :
    (e.eval n.flat s).map Value.outline = (e.eval n s).map Value.outline := by
  have htruthy : ∀ {a b : Option Value}, a.map Value.outline = b.map Value.outline →
      truthy a = truthy b := by
    intro a b hab
    rw [← truthy_outline a, hab, truthy_outline]
  induction e with
  | current accessors => exact access_flat h accessors
  | property => rfl
  | literal l => rfl
  | not e ih => rw [Expr.eval, Expr.eval, htruthy ih]
  | and e f ihe ihf =>
    simp only [Expr.eval]
    rw [htruthy ihe]
    split
    · exact ihf
    · exact ihe
  | or e f ihe ihf =>
    simp only [Expr.eval]
    rw [htruthy ihe]
    split
    · exact ihe
    · exact ihf
  | compare op e f ihe ihf =>
    rw [Expr.eval, Expr.eval, ← holds_outline op (e.eval n.flat s), ihe, ihf, holds_outline]

theorem truthy_eval_flat (h : n.Settled) (s : Segment) (e : Expr) :
    truthy (e.eval n.flat s) = truthy (e.eval n s) := by
  rw [← truthy_outline, eval_flat h, truthy_outline]

end

/-! ### Steps on written-out values -/

def arrayPosition? (i : Int) (v : Value) : Option Nat :=
  match v with
  | .array items => position? items.length i
  | _ => none

theorem arrayPosition?_outline (i : Int) (v : Value) :
    arrayPosition? i v.outline = arrayPosition? i v := by
  cases v with
  | array items => rw [Value.outline, arrayPosition?, arrayPosition?, List.length_map]
  | _ => rfl

theorem pick_index (n : Node) (i : Int) : (Selector.index i).pick n =
    ((arrayPosition? i n.value).bind fun j =>
      (n.child? (.index j)).map fun c => (.index j, c)).toList := by
  obtain ⟨v, o⟩ := n
  cases v <;> rfl

def Match.flat (m : Match) : Match :=
  ⟨m.path, m.node.flat⟩

section

variable {n : Node}

/-- A selector picks the same children. -/
theorem pick_flat (h : n.Settled) (s : Selector) :
    s.pick n.flat = (s.pick n).map fun c => (c.1, c.2.flat) := by
  have hchild : ∀ t : Segment, ((n.flat.child? t).map fun c => (t, c)).toList
      = ((n.child? t).map fun c => (t, c)).toList.map fun c => (c.1, c.2.flat) := by
    intro t
    rw [h.child?_flat]
    cases n.child? t <;> rfl
  cases s with
  | name k => exact hchild (.key k)
  | index i =>
    rw [pick_index, pick_index, congr_flat (arrayPosition?_outline i) h]
    cases arrayPosition? i n.value with
    | none => rfl
    | some j => exact hchild (.index j)
  | wildcard => exact h.children_flat
  | filter e =>
    rw [Selector.pick, Selector.pick, h.children_flat, List.filter_map]
    congr 1
    -- the children are the same by now; what the filter says of each depends on its outline
    refine List.filter_congr fun c hc => ?_
    exact truthy_eval_flat (Node.settled_of_mem_children hc) c.1 e

theorem settled_of_mem_pick {s : Selector} {c : Segment × Node} (hc : c ∈ s.pick n) :
    c.2.Settled := by
  have hchild : ∀ t : Segment, c ∈ ((n.child? t).map fun c => (t, c)).toList → c.2.Settled := by
    intro t ht
    obtain ⟨d, hd, rfl⟩ := Option.map_eq_some_iff.mp (Option.mem_toList.mp ht)
    exact Node.settled_of_child? hd
  cases s with
  | name k => exact hchild (.key k) hc
  | index i =>
    rw [pick_index] at hc
    cases hj : arrayPosition? i n.value with
    | none =>
      rw [hj] at hc
      exact absurd hc (by simp)
    | some j =>
      rw [hj] at hc
      exact hchild (.index j) hc
  | wildcard => exact Node.settled_of_mem_children hc
  | filter e => exact Node.settled_of_mem_children (List.mem_of_mem_filter hc)

end

section

variable {m : Match} {ms : List Match} {root : Node}

theorem select_flat (h : m.node.Settled) (selectors : List Selector) :
    select selectors m.flat = (select selectors m).map Match.flat := by
  rw [select, select, List.map_flatMap]
  refine List.flatMap_congr fun s _ => ?_
  show (s.pick m.node.flat).map _ = _
  rw [pick_flat h, List.map_map, List.map_map]
  rfl

theorem settled_of_mem_select {selectors : List Selector} {d : Match}
    (h : d ∈ select selectors m) : d.node.Settled := by
  obtain ⟨s, _, hd⟩ := List.mem_flatMap.mp h
  obtain ⟨c, hc, rfl⟩ := List.mem_map.mp hd
  exact settled_of_mem_pick hc

/-- **A step of a query comes to the same matches.** -/
theorem apply_flat (hroot : root.Settled) (h : ∀ m ∈ ms, m.node.Settled) (step : Step) :
    step.apply root.flat (ms.map Match.flat) = (step.apply root ms).map Match.flat := by
  cases step with
  | child selectors =>
    rw [Step.apply, Step.apply, List.flatMap_map, List.map_flatMap]
    exact List.flatMap_congr fun m hm => select_flat (h m hm) selectors
  | descendant selectors =>
    rw [Step.apply, Step.apply, List.flatMap_map, List.map_flatMap]
    refine List.flatMap_congr fun m hm => ?_
    rw [List.map_flatMap]
    show (m.node.flat.preorder m.path).flatMap _ = _
    rw [(h m hm).preorder_flat, List.flatMap_map]
    refine List.flatMap_congr fun d hd => ?_
    exact select_flat (m := ⟨d.1, d.2⟩) ((h m hm).of_mem_preorder hd) selectors
  | parent =>
    -- parents are found by their paths, from the root again
    rw [Step.apply, Step.apply, List.filterMap_map, List.map_filterMap]
    show (ms.filterMap fun m => m.path.parent?).eraseDups.filterMap _ = _
    refine List.filterMap_congr fun p _ => ?_
    rw [hroot.at?_flat]
    cases root.at? p <;> rfl

theorem settled_of_mem_apply (hroot : root.Settled) {step : Step} {d : Match}
    (hd : d ∈ step.apply root ms) : d.node.Settled := by
  cases step with
  | child selectors =>
    obtain ⟨m, _, hd⟩ := List.mem_flatMap.mp hd
    exact settled_of_mem_select hd
  | descendant selectors =>
    obtain ⟨m, _, hd⟩ := List.mem_flatMap.mp hd
    obtain ⟨c, _, hd⟩ := List.mem_flatMap.mp hd
    exact settled_of_mem_select hd
  | parent =>
    obtain ⟨p, _, hd⟩ := List.mem_filterMap.mp hd
    obtain ⟨n, hn, rfl⟩ := Option.map_eq_some_iff.mp hd
    exact hroot.of_at? hn

theorem foldl_apply_flat (ms : List Match) (hroot : root.Settled) (h : ∀ m ∈ ms, m.node.Settled)
    (steps : List Step) : steps.foldl (Step.apply root.flat) (ms.map Match.flat)
      = (steps.foldl (Step.apply root) ms).map Match.flat := by
  induction steps generalizing ms with
  | nil => rfl
  | cons step steps ih =>
    rw [List.foldl_cons, List.foldl_cons, apply_flat hroot h]
    exact ih _ fun d hd => settled_of_mem_apply hroot hd

end

end Query

namespace View

/-- **A query comes to the same paths in the same order, whether it follows references as it goes or is run
over the tree with the references replaced, and every match, written out, is what is matched there.** -/
theorem run_inlined (v : View) (q : Query) :
    (q.run v.node).map (fun m => (m.path, m.node.inlined))
      = (q.run (.raw v.inlined)).map fun m => (m.path, m.node.value) := by
  have hroot : v.node.flat = .raw v.inlined :=
    congrArg Node.raw (Node.inlined_enter v _ [] _)
  have hsettled : v.node.Settled := Node.settled_enter v _ [] _
  have hrun : q.run v.node.flat = (q.run v.node).map Query.Match.flat :=
    Query.foldl_apply_flat [⟨[], v.node⟩] hsettled
      (fun m hm => by rw [List.mem_singleton.mp hm]; exact hsettled) q.steps
  rw [← hroot, hrun, List.map_map]
  rfl

end View

end ApiLint
