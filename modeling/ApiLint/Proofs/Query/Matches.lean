import ApiLint.Proofs.View.Gathering
import ApiLint.Proofs.View.Inline
import ApiLint.Proofs.View.Places

/-!
# Matches stand where their paths lead

A query builds the path of a match next to its node: an index counted from the end is turned into a position, what lies
below a node is listed with paths, and a parent step goes back to the root and walks down again.  The path always leads
from the root to the very node (`Query.Match.Stands`), with what was crossed on the way there.  One step of a query keeps
this (`Query.stands_of_mem_apply`), and so does a run (`Query.stands_of_mem_run`).

In an object that repeats a name, a path leads to one of the members only.  No object of a document that was read does.
-/

namespace ApiLint

namespace View

variable {v : View}

theorem Gathers.isRead {g : Graph} (h : Gathers g v.documents []) (hg : g.Consistent) : v.IsRead := by
  intro d hd
  exact hg.contents d.id d.document (h.held d (List.mem_append_left _ hd)).document

end View

/-! ### Matches -/

namespace Query

def Match.Stands (root : Node) (m : Match) : Prop :=
  root.at? m.path = some m.node

variable {root n : Node} {m d : Match} {ms : List Match}

/-- A selector picks what the segment leads to. -/
theorem child?_of_mem_pick (h : n.HasDistinctNames) {s : Selector} {c : Segment × Node} (hc : c ∈ s.pick n) :
    n.child? c.1 = some c.2 := by
  have hchild : ∀ t : Segment, c ∈ ((n.child? t).map fun c => (t, c)).toList → n.child? c.1 = some c.2 := by
    intro t ht
    obtain ⟨d, hd, rfl⟩ := Option.map_eq_some_iff.mp (Option.mem_toList.mp ht)
    exact hd
  cases s with
  | name k => exact hchild (.key k) hc
  | index i =>
    rw [pick_index] at hc
    cases hj : arrayPosition? i n.value with
    | none =>
      rw [hj] at hc
      exact absurd hc List.not_mem_nil
    | some j =>
      rw [hj] at hc
      exact hchild (.index j) hc
  | wildcard => exact h.child?_of_mem_children hc
  | filter e => exact h.child?_of_mem_children (List.mem_of_mem_filter hc)

theorem stands_of_mem_select (h : root.HasDistinctNames) (hm : m.Stands root) {selectors : List Selector}
    (hd : d ∈ select selectors m) : d.Stands root := by
  obtain ⟨s, -, hd⟩ := List.mem_flatMap.mp hd
  obtain ⟨c, hc, rfl⟩ := List.mem_map.mp hd
  exact (Node.at?_child hm c.1).trans (child?_of_mem_pick (h.of_at? hm) hc)

/-- **A step of a query leads to matches that stand where their paths lead**, if those before do. -/
theorem stands_of_mem_apply (h : root.HasDistinctNames) (hms : ∀ m ∈ ms, m.Stands root) {step : Step}
    (hd : d ∈ step.apply root ms) : d.Stands root := by
  cases step with
  | child selectors =>
    obtain ⟨m, hm, hd⟩ := List.mem_flatMap.mp hd
    exact stands_of_mem_select h (hms m hm) hd
  | descendant selectors =>
    obtain ⟨m, hm, hd⟩ := List.mem_flatMap.mp hd
    obtain ⟨c, hc, hd⟩ := List.mem_flatMap.mp hd
    exact stands_of_mem_select (m := ⟨c.1, c.2⟩) h (h.at?_of_mem_preorder (hms m hm) hc) hd
  | parent =>
    -- the parent is found by walking down from the root again
    obtain ⟨p, -, hd⟩ := List.mem_filterMap.mp hd
    obtain ⟨n, hn, rfl⟩ := Option.map_eq_some_iff.mp hd
    exact hn

/-- **A query leads to matches that stand where their paths lead.** -/
theorem stands_of_mem_run (h : root.HasDistinctNames) {q : Query} (hm : m ∈ q.run root) : m.Stands root := by
  have hsteps : ∀ (steps : List Step) (ms : List Match), (∀ m ∈ ms, m.Stands root) →
      ∀ m ∈ steps.foldl (Step.apply root) ms, m.Stands root := by
    intro steps
    induction steps with
    | nil => exact fun ms hms => hms
    | cons step steps ih => exact fun ms hms => ih _ fun d hd => stands_of_mem_apply h hms hd
  refine hsteps q.steps [⟨[], root⟩] ?_ m hm
  intro m hm
  rw [List.mem_singleton.mp hm]
  exact rfl

end Query

end ApiLint
