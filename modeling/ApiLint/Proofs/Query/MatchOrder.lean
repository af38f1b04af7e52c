import ApiLint.Proofs.Graph.Answers
import ApiLint.Proofs.Graph.Sessions
import ApiLint.Proofs.Query.Matches
import ApiLint.Proofs.View.NodeOrder

/-!
# Matches in document order

A query that goes to children by one selector at a time, and to parents, leads to matches in the order of the document
(`Query.run_inDocumentOrder`).  What a step keeps is told by `Query.InDocumentOrder`: all matches are at one level, so that
none is above another, and of two of them the first one goes on into an earlier child where their paths part.

A selector picks children in their order (`Query.pick_sublist`).  Parents of different matches may be the same, and else
they are in the order of the matches (`Node.Precedes.dropLast`), so that the repetitions left out are all that is in the way.

A query may be run from any node of a tree whose objects repeat no names, as those of what was read do not: from a value as
it is written (`Node.hasDistinctNames_raw`) or from a node of a view (`View.HasDistinctNames.node`).
-/

namespace ApiLint

theorem Path.parent?_eq_some_iff {p q : Path} : p.parent? = some q ↔ p ≠ [] ∧ q = p.dropLast := by
  rw [Path.parent?]
  cases p with
  | nil => simp
  | cons s p => simp [eq_comm]

namespace Query

variable {root : Node} {ms : List Match}

/-! ### Steps with one selector -/

/-- The step goes to parents, or to children by one selector. -/
inductive Step.IsSingle : Step → Prop
  | child (s : Selector) : IsSingle (.child [s])
  | parent : IsSingle .parent

/-- A selector picks children in their order. -/
theorem pick_sublist (s : Selector) (n : Node) : (s.pick n).Sublist n.children := by
  have hchild : ∀ t : Segment, ((n.child? t).map fun c => (t, c)).toList.Sublist n.children := by
    intro t
    cases hc : n.child? t with
    | none => exact List.nil_sublist _
    | some c => exact List.singleton_sublist.mpr (Node.mem_children_of_child? hc)
  cases s with
  | name k => exact hchild (.key k)
  | index i =>
    rw [pick_index]
    cases arrayPosition? i n.value with
    | none => exact List.nil_sublist _
    | some j => exact hchild (.index j)
  | wildcard => exact List.Sublist.refl _
  | filter e => exact List.filter_sublist

theorem select_singleton (s : Selector) (m : Match) :
    select [s] m = (s.pick m.node).map fun c => ⟨m.path.child c.1, c.2⟩ :=
  List.flatMap_singleton _ _

/-! ### What a step keeps -/

/-- The matches are in the order of the document: all at one level, each with a path of its own. -/
structure InDocumentOrder (root : Node) (ms : List Match) : Prop where
  nodup : (ms.map Match.path).Nodup
  level : ∃ k, ∀ m ∈ ms, m.path.length = k
  ordered : ms.Pairwise fun m n => root.Precedes m.path n.path

theorem inDocumentOrder_of_pairwise (h : root.HasDistinctNames) {k : Nat} (hlevel : ∀ m ∈ ms, m.path.length = k)
    (hordered : ms.Pairwise fun m n => root.Precedes m.path n.path) : InDocumentOrder root ms :=
  ⟨List.pairwise_map.mpr (hordered.imp fun hmn => hmn.ne h), ⟨k, hlevel⟩, hordered⟩

namespace InDocumentOrder

/-- Children are in the order of the nodes, and those of one node in their own. -/
theorem children (h : root.HasDistinctNames) (hms : InDocumentOrder root ms) (hstands : ∀ m ∈ ms, m.Stands root)
    (s : Selector) : InDocumentOrder root (ms.flatMap (select [s])) := by
  obtain ⟨k, hk⟩ := hms.level
  refine inDocumentOrder_of_pairwise (k := k + 1) h (fun d hd => ?_) (List.pairwise_flatMap.mpr ⟨fun m hm => ?_, ?_⟩)
  · obtain ⟨m, hm, hd⟩ := List.mem_flatMap.mp hd
    rw [select_singleton] at hd
    obtain ⟨c, -, rfl⟩ := List.mem_map.mp hd
    rw [Path.child, List.length_append, hk m hm, List.length_singleton]
  · rw [select_singleton, List.pairwise_map, List.pairwise_iff_forall_sublist]
    intro c d hcd
    exact Node.Precedes.of_at? (hstands m hm) (.beside [] [] (hcd.trans (pick_sublist s m.node)))
  · refine hms.ordered.imp fun {m n} hmn x hx y hy => ?_
    rw [select_singleton] at hx hy
    obtain ⟨c, -, rfl⟩ := List.mem_map.mp hx
    obtain ⟨d, -, rfl⟩ := List.mem_map.mp hy
    exact hmn.append _ _

/-- Parents are in the order of the nodes, if they are not the same. -/
theorem parents (h : root.HasDistinctNames) (hms : InDocumentOrder root ms) :
    InDocumentOrder root (Step.parent.apply root ms) := by
  obtain ⟨k, hk⟩ := hms.level
  have hparents : (ms.filterMap fun m => m.path.parent?).Pairwise fun p q => p = q ∨ root.Precedes p q := by
    have hlevels := hms.ordered.imp_of_mem fun hm hn hmn => (⟨hmn, (hk _ hm).trans (hk _ hn).symm⟩ : _ ∧ _)
    refine hlevels.filterMap _ fun m n hmn p hp q hq => ?_
    rw [(Path.parent?_eq_some_iff.mp hp).2, (Path.parent?_eq_some_iff.mp hq).2]
    exact hmn.1.dropLast hmn.2
  have hfirst : (ms.filterMap fun m => m.path.parent?).eraseDups.Pairwise root.Precedes :=
    ((hparents.sublist (eraseDups_sublist _)).and (nodup_eraseDups _)).imp fun hpq => hpq.1.resolve_left hpq.2
  refine inDocumentOrder_of_pairwise (k := k - 1) h (fun d hd => ?_) (hfirst.filterMap _ fun p q hpq m hm n hn => ?_)
  · obtain ⟨p, hp, hd⟩ := List.mem_filterMap.mp hd
    obtain ⟨m, hm, hp⟩ := List.mem_filterMap.mp (List.mem_eraseDups.mp hp)
    obtain ⟨n, -, rfl⟩ := Option.map_eq_some_iff.mp hd
    rw [(Path.parent?_eq_some_iff.mp hp).2, List.length_dropLast, hk m hm]
  · obtain ⟨m', -, rfl⟩ := Option.map_eq_some_iff.mp hm
    obtain ⟨n', -, rfl⟩ := Option.map_eq_some_iff.mp hn
    exact hpq

theorem step (h : root.HasDistinctNames) (hms : InDocumentOrder root ms) (hstands : ∀ m ∈ ms, m.Stands root)
    {step : Step} (hstep : step.IsSingle) : InDocumentOrder root (step.apply root ms) := by
  cases hstep with
  | child s => exact hms.children h hstands s
  | parent => exact hms.parents h

theorem steps (h : root.HasDistinctNames) (hms : InDocumentOrder root ms) (hstands : ∀ m ∈ ms, m.Stands root)
    {steps : List Step} (hsteps : ∀ step ∈ steps, step.IsSingle) :
    InDocumentOrder root (steps.foldl (Step.apply root) ms) := by
  induction steps generalizing ms with
  | nil => exact hms
  | cons step steps ih =>
    obtain ⟨hstep, hsteps⟩ := List.forall_mem_cons.mp hsteps
    exact ih (hms.step h hstands hstep) (fun d hd => stands_of_mem_apply h hstands hd) hsteps

theorem start (h : root.HasDistinctNames) : InDocumentOrder root [⟨[], root⟩] := by
  refine inDocumentOrder_of_pairwise (k := 0) h (fun m hm => ?_) (List.pairwise_singleton ..)
  rw [List.mem_singleton.mp hm]
  rfl

end InDocumentOrder

/-- **A query of steps with one selector each leads to matches in document order**, each with a path of its own, however
often and in whatever order it goes down and up, in a tree as it is written and through references. -/
theorem run_inDocumentOrder (h : root.HasDistinctNames) {q : Query} (hq : ∀ step ∈ q.steps, step.IsSingle) :
    InDocumentOrder root (q.run root) := by
  refine (InDocumentOrder.start h).steps h (fun m hm => ?_) hq
  rw [List.mem_singleton.mp hm]
  exact rfl

/-- The elements that are found through a reference come before those of the array itself, whose member is the later one;
two members of one object make one parent. -/
theorem run_inDocumentOrder_of_references : ∃ s : Session, ∃ v g, ∃ q : Query, s.From ⟨"/"⟩ ∧
    View.ofDocument s.files s.graph ⟨"a.json"⟩ = (.ok v, g) ∧ v.node.HasDistinctNames ∧
      (∀ step ∈ q.steps, step.IsSingle) ∧ q.steps.length = 4 ∧
      (q.run v.node).map Match.path = [[.key "b", .index 0], [.key "b", .index 2], [.key "a", .index 0],
        [.key "a", .index 2]] ∧
      InDocumentOrder v.node (q.run v.node) := by
  let files : FileSystem := ⟨[(⟨"/a.json"⟩, "\x7b\"b\":\x7b\"$ref\":\"#/a\"\x7d,\"a\":[" ++
    "\x7b\"x\":\"1\",\"y\":2\x7d,\x7b\"x\":\"\"\x7d,\x7b\"x\":\"3\"\x7d]\x7d")], fun _ => "no such file"⟩
  let q : Query := ⟨"$.*[?(@.x)].*^",
    [.child [.wildcard], .child [.filter (.current [.key "x"])], .child [.wildcard], .parent]⟩
  have hbase : (⟨"/"⟩ : FilePath).isAbsolute = true := by decide +kernel
  have hfrom : (⟨files, .empty ⟨"/"⟩⟩ : Session).From ⟨"/"⟩ := ⟨files, [], rfl⟩
  have hsingle : ∀ step ∈ q.steps, step.IsSingle := by
    simp [q, Step.IsSingle.child, Step.IsSingle.parent]
  have hfacts : ∃ root ∈ (Graph.load files (.empty ⟨"/"⟩) ⟨"a.json"⟩).1.toOption,
      (∀ e ∈ root.references.edges, e.target.document = root.id) ∧
        (q.run (View.mk root []).node).map Match.path = [[.key "b", .index 0], [.key "b", .index 2],
          [.key "a", .index 0], [.key "a", .index 2]] := by
    decide +kernel
  obtain ⟨root, hroot, hown, hpaths⟩ := hfacts
  have hview := View.ofDocument_of_own (Graph.load_eq_of_mem_toOption hroot) hown
  obtain ⟨hg, hgathers⟩ := View.gathers_ofDocument (Graph.consistent_empty hbase) hview
  have hdistinct := (hgathers.isRead hg).hasDistinctNames.node
  have hordered := run_inDocumentOrder hdistinct hsingle
  exact ⟨_, _, _, q, hfrom, hview, hdistinct, hsingle, rfl, hpaths, hordered⟩

end Query

end ApiLint
