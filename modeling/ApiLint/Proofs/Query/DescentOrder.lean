import ApiLint.Proofs.Query.Descent

/-!
# The order of a recursive descent

A descendant step goes over the nodes in document order, and what its selector picks among the children of a node is
listed when the node is come to.  So a match is listed where its parent stands in the document
(`Query.pairwise_pickedBefore`), and it may come too early: it is listed before what is inside the siblings in front of
it.

`Query.run_descendant_order` says when this happens.  Of two matches the one that comes first in the document is listed
first, unless the parent of the other one is above its own parent.
-/

namespace ApiLint

/-- Two different members of a list stand in one order or in the other. -/
theorem sublist_pair_or {α : Type} {a b : α} {l : List α} (ha : a ∈ l) (hb : b ∈ l) (hne : a ≠ b) :
    [a, b].Sublist l ∨ [b, a].Sublist l := by
  induction l with
  | nil => exact absurd ha List.not_mem_nil
  | cons c l ih =>
    rcases List.mem_cons.mp ha with rfl | ha'
    · have hb' := (List.mem_cons.mp hb).resolve_left hne.symm
      exact .inl ((List.singleton_sublist.mpr hb').cons_cons a)
    · rcases List.mem_cons.mp hb with rfl | hb'
      · exact .inr ((List.singleton_sublist.mpr ha').cons_cons b)
      · exact (ih ha' hb').imp (.cons c) (.cons c)

/-- The parent of what `q` leads to is above the parent of what `p` leads to. -/
def Path.HasHigherParent (q p : Path) : Prop :=
  q.dropLast <+: p.dropLast ∧ q.dropLast ≠ p.dropLast

namespace Query

variable {root : Node} {p q : Path}

/-- What `p` leads to has the earlier parent, or is the earlier child of the same parent. -/
def PickedBefore (root : Node) (p q : Path) : Prop :=
  root.Before p.dropLast q.dropLast ∨ p.dropLast = q.dropLast ∧ root.Precedes p q

namespace PickedBefore

theorem not_hasHigherParent (h : root.HasDistinctNames) (hpq : PickedBefore root p q) : ¬ q.HasHigherParent p := by
  intro hqp
  rcases hpq with hpq | ⟨heq, -⟩
  · exact hpq.asymm h (.inl hqp)
  · exact hqp.2 heq.symm

/-- What comes later in the document and is picked before has the parent that is above. -/
theorem hasHigherParent (h : root.HasDistinctNames) (hp : p ≠ []) (hq : q ≠ []) (hpq : root.Before p q)
    (hqp : PickedBefore root q p) : q.HasHigherParent p := by
  rcases hqp with (habove | hprecedes) | ⟨-, hprecedes⟩
  · exact habove
  · -- parents that part take what is in them apart
    have hchildren := hprecedes.append [q.getLast hq] [p.getLast hp]
    rw [List.dropLast_append_getLast, List.dropLast_append_getLast] at hchildren
    exact absurd (.inr hchildren) (hpq.asymm h)
  · exact absurd (.inr hprecedes) (hpq.asymm h)

end PickedBefore

/-- **Matches are listed by the nodes they are picked from**, and those from one node in the order of its children. -/
theorem pairwise_pickedBefore (h : root.HasDistinctNames) (text : String) (s : Selector) :
    (((⟨text, [.descendant [s]]⟩ : Query).run root).map Match.path).Pairwise (PickedBefore root) := by
  have hrun : (⟨text, [.descendant [s]]⟩ : Query).run root = Step.apply root [⟨[], root⟩] (.descendant [s]) := rfl
  rw [hrun, descendant_apply, List.pairwise_map]
  refine List.pairwise_flatMap.mpr ⟨?_, h.pairwise_preorder.imp ?_⟩
  · intro d hd
    rw [List.pairwise_map, List.pairwise_iff_forall_sublist]
    intro c e hce
    have hnode := (Node.mem_preorder_iff h).mp hd
    have hchildren := hce.trans (pick_sublist s d.2)
    refine .inr ⟨?_, Node.Precedes.of_at? hnode (.beside [] [] hchildren)⟩
    simp [Path.child]
  · intro d e hde m hm n hn
    obtain ⟨c, -, rfl⟩ := List.mem_map.mp hm
    obtain ⟨c', -, rfl⟩ := List.mem_map.mp hn
    refine .inl ?_
    simpa [Path.child] using hde

theorem ne_nil_of_mem_run (h : root.HasDistinctNames) {text : String} {s : Selector}
    (hp : p ∈ ((⟨text, [.descendant [s]]⟩ : Query).run root).map Match.path) : p ≠ [] := by
  obtain ⟨m, hm, rfl⟩ := List.mem_map.mp hp
  obtain ⟨q, n, t, -, -, hpath⟩ := ((run_descendant h text s).2 m).mp hm
  rw [hpath]
  simp [Path.child]

/-- **A recursive descent lists its matches in document order, but for those that have a parent above.**  Of two
matches the one that a walk over the tree comes to first, a node before its children and these in their order, is listed
first if and only if the parent of the other one is not above its own parent; and else it is listed after the other
one. -/
theorem run_descendant_order (h : root.HasDistinctNames) (text : String) (s : Selector) :
    let found := ((⟨text, [.descendant [s]]⟩ : Query).run root).map Match.path
    ∀ p ∈ found, ∀ q ∈ found, [p, q].Sublist ((root.preorder []).map Prod.fst) →
      ([p, q].Sublist found ↔ ¬ q.HasHigherParent p) ∧ ([q, p].Sublist found ↔ q.HasHigherParent p) := by
  intro found p hp q hq hwalk
  have hbefore := List.pairwise_iff_forall_sublist.mp (List.pairwise_map.mpr h.pairwise_preorder) hwalk
  have hpicked : ∀ {p q : Path}, [p, q].Sublist found → PickedBefore root p q :=
    List.pairwise_iff_forall_sublist.mp (pairwise_pickedBefore h text s)
  have hlower : [p, q].Sublist found → ¬ q.HasHigherParent p := fun hpq => (hpicked hpq).not_hasHigherParent h
  have hhigher : [q, p].Sublist found → q.HasHigherParent p := fun hqp =>
    (hpicked hqp).hasHigherParent h (ne_nil_of_mem_run h hp) (ne_nil_of_mem_run h hq) hbefore
  -- one of the two orders is there, and each of them tells which it is
  rcases sublist_pair_or hp hq (hbefore.ne h) with hpq | hqp
  · exact ⟨iff_of_true hpq (hlower hpq), iff_of_false (fun hqp => hlower hpq (hhigher hqp)) (hlower hpq)⟩
  · exact ⟨iff_of_false (fun hpq => hlower hpq (hhigher hqp)) (not_not_intro (hhigher hqp)),
      iff_of_true hqp (hhigher hqp)⟩

/-- What a query finds in a value as it is written is told by the nodes of the value. -/
theorem run_descendant_raw (v : Value) (text : String) (s : Selector) :
    (⟨text, [.descendant [s]]⟩ : Query).run (.raw v) =
      (v.nodes.map fun n => (n.1, Node.raw n.2)).flatMap fun d =>
        (s.pick d.2).map fun c => ⟨d.1.child c.1, c.2⟩ := by
  rw [← Node.preorder_raw, ← descendant_apply]
  rfl

/-- Of three members of one name the last one in the document is found first, and the other two in their order. -/
theorem run_descendant_order_of_nested :
    let root := Node.raw (.object [("a", .object [("n", .object [("n", .null)])]), ("n", .bool true)])
    let found := ((⟨"$..n", [.descendant [.name "n"]]⟩ : Query).run root).map Match.path
    let p : Path := [.key "a", .key "n"]
    let q : Path := [.key "a", .key "n", .key "n"]
    root.HasDistinctNames ∧ found = [[.key "n"], p, q] ∧ [p, q].Sublist ((root.preorder []).map Prod.fst) ∧
      ([p, q].Sublist found ↔ ¬ q.HasHigherParent p) ∧ ([q, p].Sublist found ↔ q.HasHigherParent p) := by
  intro root found p q
  have hdistinct : root.HasDistinctNames := by
    refine Node.hasDistinctNames_raw fun r members hr => ?_
    have hnode := Value.mem_nodes_of_get? hr
    simp [Value.nodes, Value.nodesFrom, Value.memberNodes, Path.child] at hnode
    rcases hnode with ⟨-, rfl⟩ | ⟨-, rfl⟩ | ⟨-, rfl⟩ <;> decide
  have hfound : found = [[.key "n"], p, q] := congrArg (List.map Match.path) (run_descendant_raw ..)
  have hwalk : [p, q].Sublist ((root.preorder []).map Prod.fst) := by
    rw [Node.preorder_raw]
    decide
  have hp : p ∈ found := by simp [hfound]
  have hq : q ∈ found := by simp [hfound]
  exact ⟨hdistinct, hfound, hwalk, run_descendant_order hdistinct "$..n" (.name "n") p hp q hq hwalk⟩

/-- The member of the root comes behind the one inside its sibling, and is found before it. -/
theorem not_sublist_run_of_inner :
    let root := Node.raw (.object [("b", .object [("name", .null)]), ("name", .bool true)])
    let found := ((⟨"$..name", [.descendant [.name "name"]]⟩ : Query).run root).map Match.path
    let p : Path := [.key "b", .key "name"]
    let q : Path := [.key "name"]
    root.HasDistinctNames ∧ p ∈ found ∧ q ∈ found ∧ [p, q].Sublist ((root.preorder []).map Prod.fst) ∧
      ¬ [p, q].Sublist found := by
  intro root found p q
  have hfound : found = [q, p] := congrArg (List.map Match.path) (run_descendant_raw ..)
  refine ⟨Node.hasDistinctNames_raw fun r members hr => ?_, by simp [hfound], by simp [hfound], ?_, ?_⟩
  · have hnode := Value.mem_nodes_of_get? hr
    simp [Value.nodes, Value.nodesFrom, Value.memberNodes, Path.child] at hnode
    rcases hnode with ⟨-, rfl⟩ | ⟨-, rfl⟩ <;> decide
  · rw [Node.preorder_raw]
    decide
  · rw [hfound]
    decide

end Query

end ApiLint
