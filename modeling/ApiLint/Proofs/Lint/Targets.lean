import ApiLint.Proofs.Lint.Isolation
import ApiLint.Proofs.Query.Matches
import ApiLint.Proofs.View.Cycles

/-!
# Targets stand where their locations lead

A rule function is called for a node and told the tree and the location of the node in it.  It may go on from the node or
walk down from the root of the tree, and both are the same (`Linter.Located`): the queries of a rule come to matches that
stand where their paths lead, and the path of a match of the field is put behind that of its section
(`Rule.stands_of_mem_targets`).  So what a function does for other nodes makes no difference (`Linter.checkRule_congr`).
-/

namespace ApiLint

theorem Graph.each_congr {α β : Type} {f f' : α → Graph → β × Graph} {xs : List α} (h : ∀ x ∈ xs, f x = f' x)
    (g : Graph) : each f xs g = each f' xs g := by
  induction xs generalizing g with
  | nil => rfl
  | cons x xs ih =>
    rw [each, each, h x (List.mem_cons_self ..)]
    simp only [ih fun y hy => h y (List.mem_cons_of_mem x hy)]

theorem Rule.stands_of_mem_targets {tree : Node} (h : tree.HasDistinctNames) {r : Rule} {t : Query.Match}
    (ht : t ∈ r.targets tree) : t.Stands tree := by
  have hsection : ∀ s ∈ if r.given.isEmpty then [⟨[], tree⟩] else r.given.flatMap fun q => q.run tree,
      s.Stands tree := by
    intro s hs
    split at hs
    · rw [List.mem_singleton.mp hs]
      exact rfl
    · obtain ⟨q, -, hs⟩ := List.mem_flatMap.mp hs
      exact Query.stands_of_mem_run h hs
  rw [targets] at ht
  cases hfield : r.field with
  | none =>
    rw [hfield] at ht
    exact hsection t ht
  | some field =>
    rw [hfield] at ht
    obtain ⟨s, hs, ht⟩ := List.mem_flatMap.mp ht
    obtain ⟨m, hm, rfl⟩ := List.mem_map.mp ht
    have hbelow : s.node.at? m.path = some m.node := Query.stands_of_mem_run (h.of_at? (hsection s hs)) hm
    show tree.at? (s.path ++ m.path) = some m.node
    rw [Node.at?_append, hsection s hs, Option.bind_some, hbelow]

namespace Linter

structure Located (c : Context) (n : Node) : Prop where
  /-- The location leads to the node itself: to its value, to the place where it was written and over the same
  references. -/
  node : c.tree.at? c.location = some n
  /-- The path of what lies below the node leads to the same as going on from the node. -/
  below : ∀ p, c.tree.at? (c.pathTo p) = n.at? p
  /-- In the tree as written, the location is that of the value in the document. -/
  raw : ∀ v, c.tree = .raw v → n = .raw n.value ∧ v.get? c.location = some n.value

theorem located_of_stands {c : Context} {n : Node} (h : c.tree.at? c.location = some n) : Located c n := by
  refine ⟨h, fun p => ?_, fun v hv => ?_⟩
  · rw [Context.pathTo, Node.at?_append, h, Option.bind_some]
  · rw [hv, Node.at?_raw] at h
    obtain ⟨w, hw, rfl⟩ := Option.map_eq_some_iff.mp h
    exact ⟨rfl, hw⟩

theorem hasDistinctNames_treeFor {v : View} (hv : v.HasDistinctNames) (r : Rule) :
    (treeFor v r).HasDistinctNames := by
  rw [treeFor]
  cases r.resolved with
  | true => exact hv.node
  | false => exact Node.hasDistinctNames_raw (hv v.root (List.mem_cons_self ..))

/-- **A rule function is called for the node that stands where it is told.** -/
theorem located_of_mem_targets {v : View} (hv : v.IsRead) (files : FileSystem) {r : Rule} {t : Query.Match}
    (ht : t ∈ r.targets (treeFor v r)) : Located ⟨files, v, treeFor v r, t.path⟩ t.node :=
  located_of_stands (Rule.stands_of_mem_targets (hasDistinctNames_treeFor hv.hasDistinctNames r) ht)

/-- The reference at `x` is crossed, and the last of the two elements is found from the end: the target is told where it
stands in the view and not where it was written. -/
theorem located_of_last_element : ∃ s : Session, ∃ v g r t, s.From ⟨"/"⟩ ∧
    View.ofDocument s.files s.graph ⟨"a.json"⟩ = (.ok v, g) ∧ v.IsRead ∧ t ∈ r.targets (treeFor v r) ∧
      t.path = [.key "x", .index 1] ∧ t.node.source? = some ⟨⟨"/a.json"⟩, [.key "y", .index 1]⟩ ∧
      Located ⟨s.files, v, treeFor v r, t.path⟩ t.node := by
  let files : FileSystem :=
    ⟨[(⟨"/a.json"⟩, "\x7b\"x\":\x7b\"$ref\":\"#/y\"\x7d,\"y\":[1,2]\x7d")], fun _ => "no such file"⟩
  let r : Rule := ⟨"", "", "", .warning, "", .all, true, [⟨"$.x", [.child [.name "x"]]⟩],
    some ⟨"$[-1]", [.child [.index (-1)]]⟩, .null, .eager fun _ _ g => (.ok [], g)⟩
  have hbase : (⟨"/"⟩ : FilePath).isAbsolute = true := by decide +kernel
  have hfrom : (⟨files, .empty ⟨"/"⟩⟩ : Session).From ⟨"/"⟩ := ⟨files, [], rfl⟩
  have hfacts : ∃ root ∈ (Graph.load files (.empty ⟨"/"⟩) ⟨"a.json"⟩).1.toOption,
      (∀ e ∈ root.references.edges, e.target.document = root.id) ∧
        ∃ t ∈ r.targets (treeFor ⟨root, []⟩ r), t.path = [.key "x", .index 1] ∧
          t.node.source? = some ⟨⟨"/a.json"⟩, [.key "y", .index 1]⟩ := by
    decide +kernel
  obtain ⟨root, hroot, hown, t, ht, hpath, hsource⟩ := hfacts
  cases hload : Graph.load files (.empty ⟨"/"⟩) ⟨"a.json"⟩ with
  | mk answer g =>
    rw [hload] at hroot
    cases answer with
    | error e => cases hroot
    | ok root' =>
      cases hroot
      have hview := View.ofDocument_of_own hload hown
      obtain ⟨hg, hgathers⟩ := View.gathers_ofDocument (Graph.consistent_empty hbase) hview
      have hread := hgathers.isRead hg
      exact ⟨_, _, _, r, t, hfrom, hview, hread, ht, hpath, hsource, located_of_mem_targets hread files ht⟩

/-- What a rule function does for a node that does not stand where it is told makes no difference. -/
theorem checkRule_congr {v : View} (hv : v.IsRead) (l : Linter) (files : FileSystem) (r : Rule)
    {f f' : RuleFunction} (h : ∀ c options n g, Located c n → f.call c options n g = f'.call c options n g) :
    l.checkRule files v { r with function := f } = l.checkRule files v { r with function := f' } := by
  have hcalls : ∀ t ∈ r.targets (treeFor v r),
      l.checkTarget files v { r with function := f } t = l.checkTarget files v { r with function := f' } t := by
    intro t ht
    have hstands := Rule.stands_of_mem_targets (hasDistinctNames_treeFor hv.hasDistinctNames r) ht
    have hlocated : Located ⟨files, v, treeFor v r, t.path⟩ t.node := located_of_stands hstands
    funext g
    have hcall := h _ (r.mergedOptions (l.settings.options r.name)) _ g hlocated
    rw [checkTarget, checkTarget]
    exact congrArg (fun y : List (Except Fault Finding) × Graph =>
      (l.diagnosticsOf v r t.path y.1, y.2)) hcall
  funext g
  exact congrArg (fun y : List (List Diagnostic) × Graph => (y.1.flatten, y.2)) (Graph.each_congr hcalls g)

end Linter

end ApiLint
