import ApiLint.Proofs.View.Places

/-!
# Nodes in the order of their children

Two paths part at a node, where each goes on into a child of its own.  What comes first is what is in the earlier child
(`Node.Precedes`).  This is the order of a document, followed through references: what is below a node is listed in this
order, a node before what is in it (`Node.pairwise_preorder`), and whatever a path leads to is listed once
(`Node.mem_preorder_iff`, `Node.HasDistinctNames.nodup_preorder`).
-/

namespace ApiLint

/-- In a list without repetitions no two members stand in both orders. -/
theorem not_sublist_swap {α : Type} {a b : α} {l : List α} (h : l.Nodup) (hab : [a, b].Sublist l) :
    ¬ [b, a].Sublist l := by
  induction l with
  | nil => exact absurd (hab.subset List.mem_cons_self) List.not_mem_nil
  | cons c l ih =>
    obtain ⟨hc, hl⟩ := List.nodup_cons.mp h
    intro hba
    -- one of them stands in front only if it does not come again
    cases hab with
    | cons_cons _ hb =>
      cases hba with
      | cons_cons _ ha => exact hc (ha.subset (List.mem_singleton_self _))
      | cons _ hba => exact hc (hba.subset (List.mem_cons_of_mem _ (List.mem_singleton_self _)))
    | cons _ hab =>
      cases hba with
      | cons_cons _ ha => exact hc (hab.subset (List.mem_cons_of_mem _ (List.mem_singleton_self _)))
      | cons _ hba => exact ih hl hab hba

namespace Node

/-- Where the two paths part on their way from `n`, the first one goes on into an earlier child than the second. -/
inductive Precedes : Node → Path → Path → Prop
  | beside {n c d : Node} {s t : Segment} (p q : Path) : [(s, c), (t, d)].Sublist n.children →
    Precedes n (s :: p) (t :: q)
  | within {n c : Node} {s : Segment} {p q : Path} : n.child? s = some c → Precedes c p q →
    Precedes n (s :: p) (s :: q)

/-- What the first path leads to comes before what the second one leads to: it is above it, or in an earlier child. -/
def Before (n : Node) (p q : Path) : Prop :=
  (p <+: q ∧ p ≠ q) ∨ n.Precedes p q

variable {n m c : Node} {s : Segment} {p q r : Path}

theorem HasDistinctNames.nodup_children (h : n.HasDistinctNames) : (n.children.map Prod.fst).Nodup := by
  rw [children, List.map_map]
  exact h.value.nodup_children

namespace Precedes

theorem ne (h : n.HasDistinctNames) (hpq : n.Precedes p q) : p ≠ q := by
  induction hpq with
  | @beside n c d s t p q hst =>
    have hsegments : [s, t].Nodup := (hst.map Prod.fst).nodup h.nodup_children
    intro heq
    rw [(List.cons.inj heq).1, List.nodup_cons] at hsegments
    exact hsegments.1 (List.mem_singleton_self t)
  | within hc _ ih =>
    intro heq
    exact ih (h.of_child? hc) (List.cons.inj heq).2

/-- Of paths that part neither goes on from the other. -/
theorem not_isPrefix (h : n.HasDistinctNames) (hpq : n.Precedes p q) : ¬ p <+: q ∧ ¬ q <+: p := by
  induction hpq with
  | @beside n c d s t p q hst =>
    have hne : s ≠ t := fun heq =>
      not_sublist_swap h.nodup_children (hst.map Prod.fst) (heq ▸ hst.map Prod.fst)
    constructor
    · intro hp
      exact hne (List.cons_prefix_cons.mp hp).1
    · intro hq
      exact hne (List.cons_prefix_cons.mp hq).1.symm
  | within hc _ ih =>
    obtain ⟨hp, hq⟩ := ih (h.of_child? hc)
    constructor
    · intro hpre
      exact hp (List.cons_prefix_cons.mp hpre).2
    · intro hpre
      exact hq (List.cons_prefix_cons.mp hpre).2

theorem asymm (h : n.HasDistinctNames) (hpq : n.Precedes p q) : ¬ n.Precedes q p := by
  have hkeys : ∀ {n c d c' d' : Node} {s t : Segment}, n.HasDistinctNames →
      [(s, c), (t, d)].Sublist n.children → ¬ [(t, c'), (s, d')].Sublist n.children :=
    fun h hst hts => not_sublist_swap h.nodup_children (hst.map Prod.fst) (hts.map Prod.fst)
  induction hpq with
  | beside _ _ hst =>
    intro hqp
    cases hqp with
    | beside _ _ hts => exact hkeys h hst hts
    | within => exact hkeys h hst hst
  | within hc _ ih =>
    intro hqp
    cases hqp with
    | beside _ _ hss => exact hkeys h hss hss
    | within hc' hqp =>
      obtain rfl := Option.some.inj (hc.symm.trans hc')
      exact ih (h.of_child? hc) hqp

/-- Paths that part stay apart, however they go on. -/
theorem append (hpq : n.Precedes p q) (p' q' : Path) : n.Precedes (p ++ p') (q ++ q') := by
  induction hpq with
  | beside p q hst => exact .beside (p ++ p') (q ++ q') hst
  | within hc _ ih => exact .within hc ih

theorem of_at? (hr : n.at? r = some m) (hpq : m.Precedes p q) : n.Precedes (r ++ p) (r ++ q) := by
  induction r generalizing n with
  | nil =>
    obtain rfl := Option.some.inj hr
    exact hpq
  | cons s r ih =>
    obtain ⟨c, hc, hr⟩ := Option.bind_eq_some_iff.mp hr
    exact .within hc (ih hr)

/-- Of paths of one length, the parents are the same or in the same order. -/
theorem dropLast (hpq : n.Precedes p q) (hlength : p.length = q.length) :
    p.dropLast = q.dropLast ∨ n.Precedes p.dropLast q.dropLast := by
  induction hpq with
  | @beside n c d s t p q hst =>
    cases p with
    | nil =>
      obtain rfl := List.length_eq_zero_iff.mp (Nat.succ.inj hlength).symm
      exact .inl rfl
    | cons u p =>
      cases q with
      | nil => exact absurd (Nat.succ.inj hlength) (Nat.succ_ne_zero _)
      | cons w q => exact .inr (.beside _ _ hst)
  | @within n c s p q hc hpq ih =>
    have hp : p ≠ [] := by cases hpq <;> exact List.cons_ne_nil _ _
    have hq : q ≠ [] := by cases hpq <;> exact List.cons_ne_nil _ _
    rw [List.dropLast_cons_of_ne_nil hp, List.dropLast_cons_of_ne_nil hq]
    exact (ih (Nat.succ.inj hlength)).imp (congrArg (s :: ·)) (.within hc)

end Precedes

namespace Before

theorem ne (h : n.HasDistinctNames) (hpq : n.Before p q) : p ≠ q :=
  hpq.elim And.right (Precedes.ne h)

theorem asymm (h : n.HasDistinctNames) (hpq : n.Before p q) : ¬ n.Before q p := by
  rintro (⟨hqp, hne⟩ | hqp)
  · rcases hpq with ⟨hpq, -⟩ | hpq
    · exact hne (hqp.eq_of_length_le hpq.length_le)
    · exact (hpq.not_isPrefix h).2 hqp
  · rcases hpq with ⟨hpq, -⟩ | hpq
    · exact (hqp.not_isPrefix h).2 hpq
    · exact hpq.asymm h hqp

theorem within (hc : n.child? s = some c) (hpq : c.Before p q) : n.Before (s :: p) (s :: q) := by
  rcases hpq with ⟨hpq, hne⟩ | hpq
  · exact .inl ⟨List.cons_prefix_cons.mpr ⟨rfl, hpq⟩, fun heq => hne (List.cons.inj heq).2⟩
  · exact .inr (.within hc hpq)

end Before

/-! ### What is below a node -/

theorem preorder_append (p q : Path) (n : Node) :
    n.preorder (p ++ q) = (n.preorder q).map fun c => (p ++ c.1, c.2) := by
  rw [preorder_eq, preorder_eq, List.map_cons, List.map_flatMap]
  refine congrArg ((p ++ q, n) :: ·) (List.flatMap_congr fun c hc => ?_)
  rw [← preorder_append p (q.child c.1) c.2, Path.child, Path.child, List.append_assoc]
termination_by n
decreasing_by exact measure_lt_of_mem_children hc

/-- Below a node are itself and what is below its children. -/
theorem preorder_nil (n : Node) :
    n.preorder [] = ([], n) :: n.children.flatMap fun c => (c.2.preorder []).map fun d => (c.1 :: d.1, d.2) := by
  rw [preorder_eq]
  refine congrArg (([], n) :: ·) (List.flatMap_congr fun c _ => ?_)
  exact preorder_append [c.1] [] c.2

/-- What is below a node that sees references as they are written are the nodes of its value. -/
theorem preorder_raw (v : Value) : (raw v).preorder [] = v.nodes.map fun n => (n.1, raw n.2) := by
  have hchildren : (raw v).children = v.children.map fun c => (c.1, raw c.2) := rfl
  rw [preorder_nil, Value.nodes_eq, List.map_cons, List.map_flatMap, hchildren, List.flatMap_map]
  refine congrArg (([], raw v) :: ·) (List.flatMap_congr fun c hc => ?_)
  have hsmaller := Value.sizeOf_lt_of_mem_children hc
  rw [preorder_raw c.2, List.map_map, List.map_map]
  rfl
termination_by sizeOf v

/-- **What is listed below a node is what its paths lead to.** -/
theorem mem_preorder_iff (h : n.HasDistinctNames) : (p, m) ∈ n.preorder [] ↔ n.at? p = some m := by
  refine ⟨fun hm => h.at?_of_mem_preorder (p := []) rfl hm, fun hm => ?_⟩
  induction p generalizing n with
  | nil =>
    rw [preorder_nil, ← Option.some.inj hm]
    exact List.mem_cons_self
  | cons s p ih =>
    obtain ⟨c, hc, hm⟩ := Option.bind_eq_some_iff.mp hm
    rw [preorder_nil]
    refine List.mem_cons_of_mem _ (List.mem_flatMap.mpr ⟨(s, c), mem_children_of_child? hc, ?_⟩)
    exact List.mem_map.mpr ⟨(p, m), ih (h.of_child? hc) hm, rfl⟩

/-- **What is below a node is listed in the order of the children, a node before what is in it.** -/
theorem HasDistinctNames.pairwise_preorder {n : Node} (h : n.HasDistinctNames) :
    (n.preorder []).Pairwise fun c d => n.Before c.1 d.1 := by
  rw [preorder_nil, List.pairwise_cons]
  refine ⟨fun d hd => ?_, List.pairwise_flatMap.mpr ⟨fun c hc => ?_, ?_⟩⟩
  · obtain ⟨c, -, hd⟩ := List.mem_flatMap.mp hd
    obtain ⟨e, -, rfl⟩ := List.mem_map.mp hd
    exact .inl ⟨List.nil_prefix, (List.cons_ne_nil _ _).symm⟩
  · have hchild := h.child?_of_mem_children hc
    refine List.pairwise_map.mpr ((h.of_child? hchild).pairwise_preorder.imp fun hde => ?_)
    exact hde.within hchild
  · refine List.pairwise_iff_forall_sublist.mpr fun {c d} hcd x hx y hy => ?_
    obtain ⟨x', -, rfl⟩ := List.mem_map.mp hx
    obtain ⟨y', -, rfl⟩ := List.mem_map.mp hy
    exact .inr (.beside x'.1 y'.1 hcd)
termination_by n
decreasing_by exact measure_lt_of_mem_children hc

theorem HasDistinctNames.nodup_preorder (h : n.HasDistinctNames) : ((n.preorder []).map Prod.fst).Nodup :=
  List.pairwise_map.mpr (h.pairwise_preorder.imp fun hcd => hcd.ne h)

end Node

end ApiLint
