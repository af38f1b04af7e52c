import ApiLint.Proofs.Query.MatchOrder

/-!
# Recursive descent

A descendant step selects below every node of a tree, the root first.  With one selector it finds whatever the selector
picks below any node to which a path leads, and finds it once (`Query.run_descendant`): what is below a node is listed
completely and without repetitions (`Node.mem_preorder_iff`, `Node.HasDistinctNames.nodup_preorder`), and so are the
children that are picked (`Query.mem_pick_iff`, `Query.pick_sublist`).  In a view the same target may be reached by several
paths, and each of them makes matches of its own.  It makes no difference where a circle of references is cut: the
reference that is left is a node like any other.
-/

namespace ApiLint

theorem Path.child_inj {p q : Path} {s t : Segment} : p.child s = q.child t ↔ p = q ∧ s = t := by
  constructor
  · intro h
    obtain ⟨hp, hs⟩ := List.append_inj' h rfl
    exact ⟨hp, List.singleton_inj.mp hs⟩
  · rintro ⟨rfl, rfl⟩
    rfl

namespace Query

variable {root n c : Node} {m : Match} {t : Segment}

/-! ### What selectors pick -/

def Selector.Picks (s : Selector) (n : Node) (t : Segment) (c : Node) : Prop :=
  n.child? t = some c ∧
    match s with
    | name k => t = .key k
    | index i => ∃ items, n.value = .array items ∧
        ∃ j : Nat, (j : Int) = (if i < 0 then items.length + i else i) ∧ t = .index j
    | wildcard => True
    | filter e => truthy (e.eval c t) = true

/-- A negative index counts from the end. -/
theorem position?_eq_some_iff {length j : Nat} {i : Int} :
    position? length i = some j ↔ (j : Int) = (if i < 0 then length + i else i) ∧ j < length := by
  rw [position?]
  split
  · split
    · rw [Option.some.injEq]
      omega
    · simp only [reduceCtorEq, false_iff]
      omega
  · split
    · rw [Option.some.injEq]
      omega
    · simp only [reduceCtorEq, false_iff]
      omega

theorem arrayPosition?_eq_some_iff {v : Value} {j : Nat} {i : Int} : arrayPosition? i v = some j ↔
    ∃ items, v = .array items ∧ (j : Int) = (if i < 0 then items.length + i else i) ∧ j < items.length := by
  cases v with
  | array items =>
    rw [arrayPosition?, position?_eq_some_iff]
    constructor
    · intro hj
      exact ⟨items, rfl, hj⟩
    · rintro ⟨items', heq, hj⟩
      obtain rfl := Value.array.inj heq
      exact hj
  | _ => simp [arrayPosition?]

/-- What is listed for a selector is what it picks. -/
theorem mem_pick_iff (h : n.HasDistinctNames) {s : Selector} : (t, c) ∈ s.pick n ↔ s.Picks n t c := by
  have hchild : ∀ u : Segment, (t, c) ∈ ((n.child? u).map fun c => (u, c)).toList ↔ n.child? t = some c ∧ t = u := by
    intro u
    rw [Option.mem_toList, Option.map_eq_some_iff]
    constructor
    · rintro ⟨d, hd, heq⟩
      obtain ⟨rfl, rfl⟩ := Prod.mk.inj heq
      exact ⟨hd, rfl⟩
    · rintro ⟨hc, rfl⟩
      exact ⟨c, hc, rfl⟩
  cases s with
  | name k => exact hchild (.key k)
  | index i =>
    rw [pick_index]
    constructor
    · intro hpick
      obtain ⟨j, hj, hc⟩ := Option.bind_eq_some_iff.mp (Option.mem_toList.mp hpick)
      obtain ⟨hc, rfl⟩ := (hchild (.index j)).mp (Option.mem_toList.mpr hc)
      obtain ⟨items, hitems, hj, -⟩ := arrayPosition?_eq_some_iff.mp hj
      exact ⟨hc, items, hitems, j, hj, rfl⟩
    · rintro ⟨hc, items, hitems, j, hj, rfl⟩
      -- where there is a child, the index is in the array
      have hlt : j < items.length := by
        obtain ⟨w, hw, -⟩ := Option.map_eq_some_iff.mp hc
        rw [hitems] at hw
        exact (List.getElem?_eq_some_iff.mp hw).1
      rw [arrayPosition?_eq_some_iff.mpr ⟨items, hitems, hj, hlt⟩]
      exact (hchild (.index j)).mpr ⟨hc, rfl⟩
  | wildcard => exact h.mem_children_iff.trans (and_iff_left trivial).symm
  | filter e =>
    rw [Selector.pick, List.mem_filter, h.mem_children_iff]
    rfl

/-! ### What a descent finds -/

theorem descendant_apply (s : Selector) (root : Node) :
    Step.apply root [⟨[], root⟩] (.descendant [s]) =
      (root.preorder []).flatMap fun d => (s.pick d.2).map fun c => ⟨d.1.child c.1, c.2⟩ := by
  rw [Step.apply, List.flatMap_singleton]
  exact List.flatMap_congr fun d _ => select_singleton s ⟨d.1, d.2⟩

/-- **A recursive descent misses nothing and repeats nothing**: it finds all that the selector picks below the nodes of the
tree, and every path once. -/
theorem run_descendant (h : root.HasDistinctNames) (text : String) (s : Selector) :
    (((⟨text, [.descendant [s]]⟩ : Query).run root).map Match.path).Nodup ∧
      ∀ m, m ∈ (⟨text, [.descendant [s]]⟩ : Query).run root ↔
        ∃ p n t, root.at? p = some n ∧ s.Picks n t m.node ∧ m.path = p.child t := by
  have hrun : (⟨text, [.descendant [s]]⟩ : Query).run root = Step.apply root [⟨[], root⟩] (.descendant [s]) := rfl
  rw [hrun, descendant_apply]
  constructor
  · rw [List.map_flatMap, List.nodup_flatMap]
    refine ⟨fun d hd => ?_, (List.pairwise_map.mp h.nodup_preorder).imp fun {d e} hne => ?_⟩
    · have hnode := (Node.mem_preorder_iff h).mp hd
      have hpicked := ((pick_sublist s d.2).map Prod.fst).nodup (h.of_at? hnode).nodup_children
      have hpaths := hpicked.map fun t u htu => (Path.child_inj.mp htu : d.1 = d.1 ∧ t = u).2
      rwa [List.map_map] at hpaths ⊢
    · intro p hp hp'
      obtain ⟨m, hm, rfl⟩ := List.mem_map.mp hp
      obtain ⟨c, -, rfl⟩ := List.mem_map.mp hm
      obtain ⟨m', hm', heq⟩ := List.mem_map.mp hp'
      obtain ⟨c', -, rfl⟩ := List.mem_map.mp hm'
      exact hne (Path.child_inj.mp heq).1.symm
  · intro m
    constructor
    · intro hm
      obtain ⟨d, hd, hm⟩ := List.mem_flatMap.mp hm
      obtain ⟨c, hc, rfl⟩ := List.mem_map.mp hm
      have hnode := (Node.mem_preorder_iff h).mp hd
      exact ⟨d.1, d.2, c.1, hnode, (mem_pick_iff (h.of_at? hnode)).mp hc, rfl⟩
    · rintro ⟨p, n, t, hn, hpicks, hpath⟩
      refine List.mem_flatMap.mpr ⟨(p, n), (Node.mem_preorder_iff h).mpr hn, ?_⟩
      refine List.mem_map.mpr ⟨(t, m.node), (mem_pick_iff (h.of_at? hn)).mpr hpicks, ?_⟩
      rw [← hpath]

/-- In a view a descent ends within the levels that no path is below. -/
theorem visitWithin_eq_run (v : View) (text : String) (selectors : List Selector) :
    v.node.visitWithin (fun q m => select selectors ⟨q, m⟩) (v.lengthBound + 1) [] =
      some ((⟨text, [.descendant selectors]⟩ : Query).run v.node) := by
  have hroot : v.Reaches [] v.node := View.reaches_of_nodeAt? rfl
  rw [hroot.visitWithin_eq _ (by omega)]
  exact congrArg some (List.flatMap_singleton _ _).symm

/-- What is below `b` is found below `a` too.  The reference at `c` leads back to the object that it stands in: it is cut, and
its text is found. -/
theorem run_descendant_of_circle : ∃ s : Session, ∃ v g, s.From ⟨"/"⟩ ∧
    View.ofDocument s.files s.graph ⟨"a.json"⟩ = (.ok v, g) ∧ v.node.HasDistinctNames ∧
      let ms := (⟨"$..*", [.descendant [.wildcard]]⟩ : Query).run v.node
      (ms.map fun m => m.path.text) = ["$.a", "$.b", "$.a.k", "$.a.c", "$.a.c.$ref", "$.b.k", "$.b.c", "$.b.c.$ref"] ∧
      (ms.map Match.path).Nodup ∧ ∀ m, m ∈ ms ↔
        ∃ p n t, v.node.at? p = some n ∧ Selector.wildcard.Picks n t m.node ∧ m.path = p.child t := by
  let files : FileSystem := ⟨[(⟨"/a.json"⟩, "\x7b\"a\":\x7b\"$ref\":\"#/b\"\x7d,\"b\":\x7b" ++
    "\"k\":1,\"c\":\x7b\"$ref\":\"#/b\"\x7d\x7d\x7d")], fun _ => "no such file"⟩
  have hbase : (⟨"/"⟩ : FilePath).isAbsolute = true := by decide +kernel
  have hfrom : (⟨files, .empty ⟨"/"⟩⟩ : Session).From ⟨"/"⟩ := ⟨files, [], rfl⟩
  have hfacts : ∃ root ∈ (Graph.load files (.empty ⟨"/"⟩) ⟨"a.json"⟩).1.toOption,
      (∀ e ∈ root.references.edges, e.target.document = root.id) ∧
        ((View.mk root []).node.visitWithin (fun q m => select [.wildcard] ⟨q, m⟩)
            ((View.mk root []).lengthBound + 1) []).map (List.map fun m => m.path.text) =
          some ["$.a", "$.b", "$.a.k", "$.a.c", "$.a.c.$ref", "$.b.k", "$.b.c", "$.b.c.$ref"] := by
    decide +kernel
  obtain ⟨root, hroot, hown, hpaths⟩ := hfacts
  rw [visitWithin_eq_run ⟨root, []⟩ "$..*", Option.map_some, Option.some.injEq] at hpaths
  have hview := View.ofDocument_of_own (Graph.load_eq_of_mem_toOption hroot) hown
  obtain ⟨hg, hgathers⟩ := View.gathers_ofDocument (Graph.consistent_empty hbase) hview
  have hdistinct := (hgathers.isRead hg).hasDistinctNames.node
  exact ⟨_, _, _, hfrom, hview, hdistinct, hpaths, run_descendant hdistinct "$..*" .wildcard⟩

end Query

end ApiLint
