import ApiLint.Proofs.View.Landing
import ApiLint.Rule.PatchBodyParameters
import Mathlib.Data.List.Forall2

/-!
# Parents in a view

A walk through a view finds the properties that a model declares itself and, going on to the models listed under
`allOf`, those that it inherits (`Node.declaredNames`).  What it finds depends on where the model stands, and not on the
way there (`View.SamePlace.declaredNames_eq`).  Where `properties` and `allOf` are written in the model itself, the
parents are the ends of the chains that start at the entries of `allOf` (`View.stands_parents`), and all of them lie
strictly below the model, for without circles no steps lead back (`View.Acyclic.irrefl`).
-/

namespace ApiLint

open Relation (ReflTransGen TransGen)

theorem Value.child?_of_mem_items {v : Value} {x : Value × Nat} (hx : x ∈ ((v.items?).getD []).zipIdx) :
    v.child? (.index x.2) = some x.1 := by
  cases v with
  | array items => exact List.mk_mem_zipIdx_iff_getElem?.mp hx
  | _ => exact absurd hx List.not_mem_nil

/-- The properties and the parents of a model are written in the model itself, not behind references. -/
def View.IsInline (model : Value) : Prop :=
  ∀ k ∈ ["properties", "allOf"], ∀ w ∈ model.member? k, w.reference? = none

instance (model : Value) : Decidable (View.IsInline model) :=
  inferInstanceAs (Decidable (∀ k ∈ ["properties", "allOf"], ∀ w ∈ model.member? k, w.reference? = none))

/-! ### What a walk through a view finds -/

namespace Node

def ownNames (n : Node) : List String :=
  ((n.child? (.key "properties")).map fun c => c.members.map Prod.fst).getD []

/-- The names of the properties that a model declares and inherits: its own, then those of its parents. -/
def declaredNames (n : Node) : List String :=
  n.ownNames ++ (PatchBodyParameters.parents n).attach.flatMap fun p => declaredNames p.1
termination_by n
decreasing_by exact PatchBodyParameters.measure_lt_of_mem_parents p.2

theorem declaredNames_eq (n : Node) :
    n.declaredNames = n.ownNames ++ (PatchBodyParameters.parents n).flatMap declaredNames := by
  rw [declaredNames, List.flatMap_subtype (g := declaredNames) (fun _ _ => rfl), List.unattach_attach]

inductive Inherits (n : Node) : Node → Prop
  | self : Inherits n n
  | parent {m p : Node} : Inherits n m → p ∈ PatchBodyParameters.parents m → Inherits n p

theorem Inherits.of_parent {n p m : Node} (hp : p ∈ PatchBodyParameters.parents n) (h : p.Inherits m) :
    n.Inherits m := by
  induction h with
  | self => exact .parent .self hp
  | parent _ hm ih => exact ih.parent hm

theorem Inherits.cases_head {n m : Node} (h : n.Inherits m) :
    m = n ∨ ∃ p ∈ PatchBodyParameters.parents n, p.Inherits m := by
  induction h with
  | self => exact .inl rfl
  | parent _ hm ih =>
    rcases ih with rfl | ⟨p, hp, hinherits⟩
    · exact .inr ⟨_, hm, .self⟩
    · exact .inr ⟨p, hp, hinherits.parent hm⟩

theorem descend_of_not_reference (n : Node) (s : Segment) {w : Value} (h : w.reference? = none) :
    n.descend s w = ⟨w, n.origin.map fun o =>
      ⟨o.view, ⟨o.place.document, o.place.path.child s⟩, o.crossed⟩⟩ := by
  rw [descend]
  cases n.origin with
  | none => rfl
  | some o => exact enter_of_stay (by rw [View.landing?, h])

theorem ownNames_eq {n : Node} (h : View.IsInline n.value) :
    n.ownNames = (View.ownProperties n.value).map Prod.fst := by
  rw [ownNames, child?, View.ownProperties, Value.child?]
  cases hw : n.value.member? "properties" with
  | none => rfl
  | some w =>
    rw [Option.map_some, Option.map_some, Option.getD_some, Option.bind_some,
      descend_of_not_reference n _ (h _ (by decide) w hw), members, List.map_map]
    rfl

end Node

namespace View

variable {v : View} {n n' c : Node} {p q q' : Path} {l t : Location}

theorem nodeAt?_child {s : Segment} (hn : v.nodeAt? q = some n) (hc : n.child? s = some c) :
    v.nodeAt? (q.child s) = some c := by
  rw [nodeAt?] at hn
  rw [nodeAt?, Path.child, Node.at?_append, hn, Option.bind_some, Node.at?, hc]
  rfl

theorem Follows.source?_eq (h : v.Follows l n) (h' : v.Follows l n') : n.source? = n'.source? := by
  obtain ⟨t, ht, hjumps, hend, -⟩ := h
  obtain ⟨t', ht', hjumps', hend', -⟩ := h'
  rw [ht, ht', end_unique hjumps hend hjumps' hend']

structure SamePlace (v : View) (n n' : Node) : Prop where
  left : ∃ q, v.nodeAt? q = some n
  right : ∃ q, v.nodeAt? q = some n'
  place : n.source? = n'.source?

section

variable (hcut : v.CutsOnlyCircles) (hacyclic : v.Acyclic)
include hcut

theorem CutsOnlyCircles.valueAt?_source (hn : v.nodeAt? q = some n) (ht : n.source? = some t) :
    v.valueAt? t = some n.value := by
  obtain ⟨t', ht', hvalue⟩ := hcut.placed q n hn
  cases ht.symm.trans ht'
  exact hvalue

theorem SamePlace.value_eq (h : v.SamePlace n n') : n.value = n'.value := by
  obtain ⟨⟨q, hn⟩, ⟨q', hn'⟩, hplace⟩ := h
  obtain ⟨t, ht, hvalue⟩ := hcut.placed q n hn
  exact Option.some.inj (hvalue.symm.trans (hcut.valueAt?_source hn' (hplace ▸ ht)))

include hacyclic

theorem CutsOnlyCircles.follows_child {s : Segment} (hn : v.nodeAt? q = some n) (ht : n.source? = some t)
    (hc : n.child? s = some c) : v.Follows ⟨t.document, t.path.child s⟩ c :=
  hcut.children hacyclic q n t s c hn ht (Node.mem_children_of_child? hc)

/-- What lies below one place does so wherever the walk came from. -/
theorem SamePlace.descend (h : v.SamePlace n n') {s : Segment} {w : Value} (hw : n.value.child? s = some w) :
    v.SamePlace (n.descend s w) (n'.descend s w) := by
  have hvalue := h.value_eq hcut
  obtain ⟨⟨q, hn⟩, ⟨q', hn'⟩, hplace⟩ := h
  obtain ⟨t, ht, -⟩ := hcut.placed q n hn
  have hc : n.child? s = some (n.descend s w) := by rw [Node.child?, hw, Option.map_some]
  have hc' : n'.child? s = some (n'.descend s w) := by rw [Node.child?, ← hvalue, hw, Option.map_some]
  exact ⟨⟨_, nodeAt?_child hn hc⟩, ⟨_, nodeAt?_child hn' hc'⟩, (hcut.follows_child hacyclic hn ht hc).source?_eq
    (hcut.follows_child hacyclic hn' (hplace ▸ ht) hc')⟩

/-- What a model declares and inherits depends on where it stands, and not on the way there. -/
theorem SamePlace.declaredNames_eq {n n' : Node} (h : v.SamePlace n n') : n.declaredNames = n'.declaredNames := by
  have hvalue := h.value_eq hcut
  have hown : n.ownNames = n'.ownNames := by
    rw [Node.ownNames, Node.ownNames, Node.child?, Node.child?, ← hvalue]
    cases hw : n.value.child? (.key "properties") with
    | none => rfl
    | some w =>
      have hbelow := (h.descend hcut hacyclic hw).value_eq hcut
      simp only [Option.map_some, Option.getD_some, Node.members, hbelow, List.map_map]
      rfl
  rw [Node.declaredNames_eq, Node.declaredNames_eq n', hown]
  congr 1
  cases hw : n.value.child? (.key "allOf") with
  | none =>
    rw [PatchBodyParameters.parents, PatchBodyParameters.parents, Node.child?, Node.child?, ← hvalue, hw]
    rfl
  | some w =>
    have hlist := h.descend hcut hacyclic hw
    have hparents : PatchBodyParameters.parents n = (n.descend (.key "allOf") w).elements := by
      rw [PatchBodyParameters.parents, Node.child?, hw, Option.map_some, Option.map_some, Option.getD_some]
    rw [hparents, PatchBodyParameters.parents, Node.child?, ← hvalue, hw, Option.map_some, Option.map_some,
      Option.getD_some, Node.elements, Node.elements, ← hlist.value_eq hcut, List.flatMap_map, List.flatMap_map]
    apply List.flatMap_congr
    intro x hx
    have hmem : (n.descend (.key "allOf") w).descend (.index x.2) x.1 ∈ PatchBodyParameters.parents n := by
      rw [hparents]
      exact List.mem_map.mpr ⟨x, hx, rfl⟩
    exact (hlist.descend hcut hacyclic (Value.child?_of_mem_items hx)).declaredNames_eq
termination_by n
decreasing_by exact PatchBodyParameters.measure_lt_of_mem_parents hmem

end

/-! ### Steps lead on -/

/-- Steps go down, or over an edge somewhere. -/
theorem crosses_of_steps (h : TransGen v.Step l t) :
    l.path.length < t.path.length ∨
      ∃ k e, v.edge? k = some e ∧ ReflTransGen v.Step l k ∧ ReflTransGen v.Step e.target t := by
  induction h with
  | single hstep =>
    cases hstep with
    | down => exact .inl (by rw [Path.child, List.length_append, List.length_singleton]; omega)
    | jump he => exact .inr ⟨_, _, he, .refl, .refl⟩
  | tail hsteps hstep ih =>
    cases hstep with
    | down hnode =>
      rcases ih with hlt | ⟨k, e, he, hbefore, hafter⟩
      · exact .inl (by rw [Path.child, List.length_append, List.length_singleton]; omega)
      · exact .inr ⟨k, e, he, hbefore, hafter.tail (.down hnode)⟩
    | jump he => exact .inr ⟨_, _, he, hsteps.to_reflTransGen, .refl⟩

/-- Without circles no steps lead back to where they start. -/
theorem Acyclic.irrefl (h : v.Acyclic) (l : Location) : ¬ TransGen v.Step l l := by
  intro hsteps
  rcases crosses_of_steps hsteps with hlt | ⟨k, e, he, hbefore, hafter⟩
  · exact absurd hlt (Nat.lt_irrefl _)
  · exact h k e he (hafter.trans hbefore)

/-! ### Parents -/

structure Stands (v : View) (l : Location) (w : Value) (n : Node) : Prop where
  value : v.valueAt? l = some w
  node : ∃ q, v.nodeAt? q = some n
  follows : v.Follows l n

def parentPlace (t : Location) (i : Nat) : Location :=
  ⟨t.document, (t.path.child (.key "allOf")).child (.index i)⟩

/-- **The parents of a model, as they are written and as the view leads to them.** -/
theorem stands_parents (hv : v.Complete) (hacyclic : v.Acyclic) (hn : v.nodeAt? q = some n)
    (ht : n.source? = some t) (hinline : IsInline n.value) :
    ∃ f, PatchBodyParameters.parents n = (parents n.value).zipIdx.map f ∧ ∀ x ∈ (parents n.value).zipIdx,
      TransGen v.Step t (parentPlace t x.2) ∧ v.Stands (parentPlace t x.2) x.1 (f x) := by
  have hcut := hv.onlyCircles
  cases ha : n.value.child? (.key "allOf") with
  | none =>
    have hwritten : n.value.member? "allOf" = none := ha
    rw [parents, hwritten, PatchBodyParameters.parents, Node.child?, ha]
    exact ⟨fun _ => n, rfl, fun x hx => absurd hx List.not_mem_nil⟩
  | some a =>
    have hwritten : n.value.member? "allOf" = some a := ha
    have hlist := n.descend_of_not_reference (.key "allOf") (hinline _ (by decide) a hwritten)
    have hc : n.child? (.key "allOf") = some (n.descend (.key "allOf") a) := by rw [Node.child?, ha, Option.map_some]
    have hvalue : (n.descend (.key "allOf") a).value = a := by rw [hlist]
    have hsource : (n.descend (.key "allOf") a).source? = some ⟨t.document, t.path.child (.key "allOf")⟩ := by
      obtain ⟨o, ho, rfl⟩ := Option.map_eq_some_iff.mp ht
      rw [hlist, Node.source?, ho]
      rfl
    have ha' := HasDistinctNames.valueAt?_child hv.distinct (hcut.valueAt?_source hn ht) (Value.mem_children_of_child? ha)
    rw [parents, hwritten, PatchBodyParameters.parents, hc, Option.bind_some, Option.map_some, Option.getD_some,
      Node.elements, hvalue]
    refine ⟨_, rfl, ?_⟩
    intro x hx
    have hx := Value.child?_of_mem_items hx
    have hentry : v.valueAt? (parentPlace t x.2) = some x.1 :=
      HasDistinctNames.valueAt?_child hv.distinct ha' (Value.mem_children_of_child? hx)
    have hchild : (n.descend (.key "allOf") a).child? (.index x.2)
        = some ((n.descend (.key "allOf") a).descend (.index x.2) x.1) := by
      rw [Node.child?, hvalue, hx, Option.map_some]
    refine ⟨.tail (.single (.down (by rw [ha']; rfl))) (.down ?_), hentry,
      ⟨_, nodeAt?_child (nodeAt?_child hn hc) hchild⟩,
      hcut.follows_child hacyclic (nodeAt?_child hn hc) hsource hchild⟩
    show (v.valueAt? (parentPlace t x.2)).isSome
    rw [hentry]
    rfl

/-- Parents lie strictly below the model. -/
theorem steps_of_mem_parents (hv : v.Complete) (hacyclic : v.Acyclic) (hn : v.nodeAt? q = some n)
    (ht : n.source? = some t) (hinline : IsInline n.value) {m : Node} (hm : m ∈ PatchBodyParameters.parents n)
    (hl : m.source? = some l) : TransGen v.Step t l := by
  obtain ⟨f, hparents, hall⟩ := stands_parents hv hacyclic hn ht hinline
  rw [hparents] at hm
  obtain ⟨x, hx, rfl⟩ := List.mem_map.mp hm
  obtain ⟨hbelow, -, -, l', hl', hjumps, -⟩ := hall x hx
  cases hl.symm.trans hl'
  exact hbelow.trans_left (steps_of_jumps hjumps)

/-- Where no reference stands above a model of the viewed document, its path leads to its node. -/
theorem exists_nodeAt? (hv : v.Complete) (hacyclic : v.Acyclic) {w : Value}
    (hw : v.root.document.valueAt? p = some w)
    (habove : ∀ i < p.length, v.edge? ⟨v.root.id, p.take i⟩ = none) :
    ∃ n, v.nodeAt? p = some n ∧ v.Follows ⟨v.root.id, p⟩ n := by
  induction p using List.reverseRecOn generalizing w with
  | nil => exact ⟨v.node, rfl, hv.onlyCircles.root hacyclic⟩
  | append_singleton p s ih =>
    rw [Document.valueAt?, Value.get?_append] at hw
    obtain ⟨u, hu, hs⟩ := Option.bind_eq_some_iff.mp hw
    obtain ⟨c, hc, -⟩ := Option.bind_eq_some_iff.mp hs
    have habove : ∀ i ≤ p.length, v.edge? ⟨v.root.id, p.take i⟩ = none := by
      intro i hi
      have hnone := habove i (by rw [List.length_append, List.length_singleton]; omega)
      rwa [List.take_append_of_le_length hi] at hnone
    obtain ⟨n, hn, t, ht, hjumps, hend, hvalue⟩ := ih hu fun i hi => habove i hi.le
    have hplain := habove p.length (Nat.le_refl _)
    rw [List.take_length] at hplain
    obtain rfl := end_unique hjumps hend .refl hplain
    rw [valueAt?, hv.root, Option.bind_some, Document.valueAt?, hu] at hvalue
    have hchild : n.child? s = some (n.descend s c) := by
      rw [Node.child?, ← Option.some.inj hvalue, hc, Option.map_some]
    exact ⟨_, nodeAt?_child hn hchild, hv.onlyCircles.follows_child hacyclic hn ht hchild⟩

/-! ### Lines of single parents -/

/-- At `t` and the places `ts` stand models each of which has the next one as its only parent, and the last one has
none. -/
def IsLine (v : View) (t : Location) : List Location → Prop
  | [] => v.edge? t = none ∧ ∃ w ∈ v.valueAt? t, IsInline w ∧ (parents w).length = 0
  | u :: us => v.edge? t = none ∧ (∃ w ∈ v.valueAt? t, IsInline w ∧ (parents w).length = 1) ∧
    (v.edge? (parentPlace t 0)).map Edge.target = some u ∧ IsLine v u us

instance decidableIsLine (v : View) (t : Location) : (ts : List Location) → Decidable (v.IsLine t ts)
  | [] => inferInstanceAs (Decidable (_ ∧ ∃ w ∈ v.valueAt? t, IsInline w ∧ (parents w).length = 0))
  | u :: us =>
    have := decidableIsLine v u us
    inferInstanceAs (Decidable (_ ∧ (∃ w ∈ v.valueAt? t, IsInline w ∧ (parents w).length = 1) ∧ _ ∧ v.IsLine u us))

theorem IsLine.edge?_eq_none {ts : List Location} (h : v.IsLine t ts) : v.edge? t = none := by
  cases ts <;> exact h.1

def namesAt (v : View) (t : Location) : List String :=
  ((v.valueAt? t).map fun w => (ownProperties w).map Prod.fst).getD []

/-- The walk up a line finds the properties of its models one after another, and comes to no others. -/
theorem IsLine.declaredNames_eq {ts : List Location} (h : v.IsLine t ts) (hv : v.Complete) (hacyclic : v.Acyclic)
    (hn : v.nodeAt? q = some n) (ht : n.source? = some t) :
    n.declaredNames = (t :: ts).flatMap v.namesAt ∧
      ∀ m, n.Inherits m → IsInline m.value ∧ ∃ u ∈ t :: ts, m.source? = some u ∧ v.valueAt? u = some m.value := by
  have hvalue := hv.onlyCircles.valueAt?_source hn ht
  have hnames : v.namesAt t = (ownProperties n.value).map Prod.fst := by rw [namesAt, hvalue]; rfl
  induction ts generalizing t n q with
  | nil =>
    obtain ⟨-, w, hw, hinline, hnone⟩ := h
    obtain rfl := Option.some.inj (hvalue.symm.trans hw)
    obtain ⟨f, hparents, -⟩ := stands_parents hv hacyclic hn ht hinline
    rw [List.eq_nil_of_length_eq_zero hnone, List.zipIdx_nil, List.map_nil] at hparents
    constructor
    · rw [Node.declaredNames_eq, hparents, Node.ownNames_eq hinline, List.flatMap_nil, List.append_nil,
        List.flatMap_singleton, hnames]
    · intro m hm
      obtain rfl | ⟨p, hp, -⟩ := hm.cases_head
      · exact ⟨hinline, t, List.mem_cons_self .., ht, hvalue⟩
      · rw [hparents] at hp
        exact absurd hp List.not_mem_nil
  | cons u us ih =>
    obtain ⟨-, ⟨w, hw, hinline, hone⟩, hjump, hline⟩ := h
    obtain rfl := Option.some.inj (hvalue.symm.trans hw)
    obtain ⟨x, hx⟩ := List.length_eq_one_iff.mp hone
    obtain ⟨f, hparents, hstands⟩ := stands_parents hv hacyclic hn ht hinline
    rw [hx] at hparents hstands
    obtain ⟨-, -, ⟨q', hn'⟩, u', hu', hjumps, hend', hvalue'⟩ := hstands (x, 0) (List.mem_singleton_self _)
    obtain ⟨e, he, htarget⟩ := Option.map_eq_some_iff.mp hjump
    obtain rfl := end_unique hjumps hend' (.single ⟨e, he, htarget⟩) hline.edge?_eq_none
    obtain ⟨hdeclared, hall⟩ := ih hline hn' hu' hvalue' (by rw [namesAt, hvalue']; rfl)
    constructor
    · rw [Node.declaredNames_eq, hparents, Node.ownNames_eq hinline, List.flatMap_cons, hnames, ← hdeclared]
      exact congrArg _ (List.flatMap_singleton ..)
    · intro m hm
      obtain rfl | ⟨p, hp, hm⟩ := hm.cases_head
      · exact ⟨hinline, t, List.mem_cons_self .., ht, hvalue⟩
      · rw [hparents] at hp
        obtain rfl := List.mem_singleton.mp hp
        obtain ⟨hinline, k, hk, hplace⟩ := hall m hm
        exact ⟨hinline, k, List.mem_cons_of_mem t hk, hplace⟩

/-- The node of a model of the viewed document with single parents. -/
theorem IsLine.exists_node {ts : List Location} (h : v.IsLine ⟨v.root.id, p⟩ ts) (hv : v.Complete)
    (hacyclic : v.Acyclic) {w : Value} (hw : v.root.document.valueAt? p = some w)
    (habove : ∀ i < p.length, v.edge? ⟨v.root.id, p.take i⟩ = none) :
    ∃ n, v.nodeAt? p = some n ∧ v.Follows ⟨v.root.id, p⟩ n ∧
      n.declaredNames = (⟨v.root.id, p⟩ :: ts).flatMap v.namesAt ∧
      ∀ m, n.Inherits m → IsInline m.value ∧
        ∃ u ∈ ⟨v.root.id, p⟩ :: ts, m.source? = some u ∧ v.valueAt? u = some m.value := by
  obtain ⟨n, hn, hfollows⟩ := exists_nodeAt? hv hacyclic hw habove
  have ht : n.source? = some ⟨v.root.id, p⟩ := by
    obtain ⟨t, ht, hjumps, hend, -⟩ := hfollows
    rw [ht, end_unique hjumps hend .refl h.edge?_eq_none]
  exact ⟨n, hn, hfollows, h.declaredNames_eq hv hacyclic hn ht⟩

end View

end ApiLint
