import ApiLint.Proofs.Graph.Answers
import ApiLint.Proofs.Json.NodeCount
import Mathlib.Data.List.Nodup
import Mathlib.Data.List.Perm.Subperm

/-!
# Chains of references end

`Graph.Chain` is what following a chain of references comes to, said without a bound on the number of links: an edge
is crossed unless it leads to a node that was landed on before.  What a chain comes to is determined by the documents
that are loaded (`Chain.unique`).

The function that follows a chain is handed a number of links that it may cross, and it never runs out of them
(`chain_followFrom`).  Every link lands on a further node of a document that can be loaded, and there are fewer of
these nodes than links (`Consistent.length_lt_size`), for a document has no more nodes than bytes.

So following a chain is settled, like the loads it makes (`settled_follow`).
-/

namespace ApiLint.Graph

/-- The chain that starts at `p` in `source`, after `visited` was landed on, comes to the given resolution.  Documents
are loaded as `answer` says. -/
inductive Chain (answer : DocumentId → Except LoadError Loaded) :
    List Location → Loaded → Path → Resolution → Prop
  | ends {visited : List Location} {source : Loaded} {p : Path} : source.references.edge? p = none →
    source.references.error? p = none → Chain answer visited source p (.resolved source.document p)
  | fails {visited : List Location} {source : Loaded} {p : Path} {e : ReferenceError} :
    source.references.edge? p = none → source.references.error? p = some e →
    Chain answer visited source p (.unresolved e)
  | closes {visited : List Location} {source : Loaded} {p : Path} {e : Edge} :
    source.references.edge? p = some e → e.target ∈ visited → Chain answer visited source p (.cycle e.target)
  | goes {visited : List Location} {source next : Loaded} {p : Path} {e : Edge} {r : Resolution} :
    source.references.edge? p = some e → e.target ∉ visited → answer e.target.document = .ok next →
    Chain answer (e.target :: visited) next e.target.path r → Chain answer visited source p r

theorem Chain.unique {answer : DocumentId → Except LoadError Loaded} {visited : List Location} {source : Loaded}
    {p : Path} {r r' : Resolution} (h : Chain answer visited source p r) (h' : Chain answer visited source p r') :
    r = r' := by
  induction h with
  | ends hedge herror =>
    cases h' with
    | ends => rfl
    | fails _ herror' => cases herror.symm.trans herror'
    | closes hedge' => cases hedge.symm.trans hedge'
    | goes hedge' => cases hedge.symm.trans hedge'
  | fails hedge herror =>
    cases h' with
    | ends _ herror' => cases herror.symm.trans herror'
    | fails _ herror' => cases herror.symm.trans herror'; rfl
    | closes hedge' => cases hedge.symm.trans hedge'
    | goes hedge' => cases hedge.symm.trans hedge'
  | closes hedge hvisited =>
    cases h' with
    | ends hedge' => cases hedge.symm.trans hedge'
    | fails hedge' => cases hedge.symm.trans hedge'
    | closes hedge' => cases hedge.symm.trans hedge'; rfl
    | goes hedge' hfresh =>
      cases hedge.symm.trans hedge'
      exact absurd hvisited hfresh
  | goes hedge hfresh hnext _ ih =>
    cases h' with
    | ends hedge' => cases hedge.symm.trans hedge'
    | fails hedge' => cases hedge.symm.trans hedge'
    | closes hedge' hvisited =>
      cases hedge.symm.trans hedge'
      exact absurd hvisited hfresh
    | goes hedge' _ hnext' hrest =>
      cases hedge.symm.trans hedge'
      cases hnext.symm.trans hnext'
      exact ih hrest

section

variable {files : FileSystem} {g₀ g : Graph} {id : DocumentId} {d : Document}

/-! ### How many nodes there are -/

def HasNode (files : FileSystem) (g : Graph) (l : Location) : Prop :=
  ∃ d, (g.load files l.document).1 = .ok d ∧ d.id = l.document ∧ (d.document.valueAt? l.path).isSome

theorem exists_file_of_fetch (h : fetch files id = .ok d) :
    ∃ f ∈ files.files, f.1.components = id.components ∧ Document.read id f.2 = .ok d := by
  rw [fetch, FileSystem.read] at h
  cases hfile : files.files.find? fun f => f.1.components = id.components with
  | none =>
    rw [hfile] at h
    cases h
  | some f =>
    rw [hfile] at h
    have hcomponents := List.find?_some hfile
    refine ⟨f, List.mem_of_find?_eq_some hfile, of_decide_eq_true hcomponents, ?_⟩
    cases hread : Document.read id f.2 with
    | error cause =>
      simp only [hread] at h
      cases h
    | ok d' =>
      simp only [hread] at h
      rw [Except.ok.inj h]

def nodePaths (text : String) : List Path :=
  match Json.read text with
  | .error _ => []
  | .ok tree => tree.value.nodes.map Prod.fst

theorem nodePaths_of_read {text : String} (h : Document.read id text = .ok d) :
    nodePaths text = d.value.nodes.map Prod.fst := by
  obtain ⟨tree, htree, rfl⟩ := Document.exists_of_read h
  rw [nodePaths, htree]

theorem length_nodePaths_le (text : String) : (nodePaths text).length ≤ text.utf8ByteSize := by
  cases htree : Json.read text with
  | error e =>
    rw [nodePaths, htree]
    exact Nat.zero_le _
  | ok tree =>
    have hread : Document.read ⟨""⟩ text = .ok ⟨⟨""⟩, text, tree.value, tree.positions⟩ := by
      rw [Document.read, htree]
      rfl
    rw [nodePaths_of_read hread, List.length_map]
    exact Document.length_nodes_le hread

theorem length_flatMap_add_le {α β : Type} {f : α → List β} {size : α → Nat} {xs : List α}
    (h : ∀ x ∈ xs, (f x).length ≤ size x) (n : Nat) :
    (xs.flatMap f).length + n ≤ xs.foldr (fun x n => size x + n) n := by
  induction xs with
  | nil => exact Nat.le_of_eq (Nat.zero_add n)
  | cons x xs ih =>
    have hx := h x (List.mem_cons_self ..)
    have hxs := ih fun y hy => h y (List.mem_cons_of_mem x hy)
    rw [List.flatMap_cons, List.length_append, List.foldr_cons]
    omega

/-- **There are fewer nodes than `Graph.size` says.** -/
theorem Consistent.length_lt_size (hg : g.Consistent) {ls : List Location} (hnodup : ls.Nodup)
    (hls : ∀ l ∈ ls, g.HasNode files l) : ls.length < g.size files := by
  -- a node is told by the components of its document and its path
  let key : Location → List Component × Path := fun l => (l.document.components, l.path)
  let fromFiles := files.files.flatMap fun f => (nodePaths f.2).map fun p => (f.1.components, p)
  let fromDocuments := g.documents.flatMap fun d => (nodePaths d.content).map fun p => (d.id.components, p)
  have hcanonical : ∀ l ∈ ls, g.canonical l.document = l.document := by
    intro l hl
    obtain ⟨d, hd, hid, -⟩ := hls l hl
    rw [← hg.id_of_load hd, hid]
  have hkeys : (ls.map key).Nodup := by
    refine hnodup.map_on fun l hl l' hl' heq => ?_
    obtain ⟨hcomponents, hpath⟩ := Prod.mk.inj heq
    have hdocument := FilePath.eq_of_components_eq hg.absolute (hcanonical l hl) (hcanonical l' hl') hcomponents
    obtain ⟨document, path⟩ := l
    obtain ⟨document', path'⟩ := l'
    exact congrArg₂ Location.mk hdocument hpath
  have hsubset : ls.map key ⊆ fromFiles ++ fromDocuments := by
    intro k hk
    obtain ⟨l, hl, rfl⟩ := List.mem_map.mp hk
    obtain ⟨d, hd, hid, hnode⟩ := hls l hl
    obtain ⟨w, hw⟩ := Option.isSome_iff_exists.mp hnode
    have hpath : l.path ∈ d.document.value.nodes.map Prod.fst :=
      List.mem_map.mpr ⟨(l.path, w), Value.mem_nodes_of_get? hw, rfl⟩
    have hparsed := map_load files g l.document
    rw [hd] at hparsed
    rw [List.mem_append]
    cases ho : g.outcome? (g.canonical l.document) with
    | some o =>
      rw [loadParsed_of_some ho] at hparsed
      obtain rfl : Except.ok d.document = o := hparsed
      rw [hcanonical l hl] at ho
      refine .inr (List.mem_flatMap.mpr ⟨d.document, mem_documents_of_outcome? ho, List.mem_map.mpr ⟨l.path, ?_, ?_⟩⟩)
      · rwa [nodePaths_of_read (hg.contents _ _ ho)]
      · exact congrArg (fun i => (FilePath.components i, l.path)) hid
    | none =>
      rw [loadParsed_of_none ho, hcanonical l hl] at hparsed
      obtain ⟨f, hf, hcomponents, hread⟩ := exists_file_of_fetch hparsed.symm
      refine .inl (List.mem_flatMap.mpr ⟨f, hf, List.mem_map.mpr ⟨l.path, ?_, ?_⟩⟩)
      · rwa [nodePaths_of_read hread]
      · exact congrArg (fun c => (c, l.path)) hcomponents
  have hle := (List.subperm_of_subset hkeys hsubset).length_le
  have hfiles : fromFiles.length + 0 ≤ files.size := by
    refine length_flatMap_add_le (fun f _ => ?_) 0
    rw [List.length_map]
    exact length_nodePaths_le f.2
  have hdocuments : fromDocuments.length + files.size
      ≤ g.documents.foldr (fun d n => d.content.utf8ByteSize + n) files.size := by
    refine length_flatMap_add_le (fun d _ => ?_) _
    rw [List.length_map]
    exact length_nodePaths_le d.content
  rw [List.length_map, List.length_append] at hle
  rw [size]
  omega

/-! ### Following a chain -/

/-- A chain stops where no edge starts, or one that leads to what was landed on. -/
theorem chain_of_stop (files : FileSystem) (g : Graph) (links : Nat) {visited : List Location} {source : Loaded}
    {p : Path} (hstop : ∀ e, source.references.edge? p = some e → e.target ∈ visited)
    (answer : DocumentId → Except LoadError Loaded) :
    Chain answer visited source p (followFrom files links g visited source p).1 ∧
      (followFrom files links g visited source p).2 = g := by
  rw [followFrom.eq_def]
  cases hedge : source.references.edge? p with
  | none =>
    cases herror : source.references.error? p with
    | none => exact ⟨.ends hedge herror, rfl⟩
    | some e => exact ⟨.fails hedge herror, rfl⟩
  | some e =>
    dsimp only
    rw [if_pos (hstop e hedge)]
    exact ⟨.closes hedge (hstop e hedge), rfl⟩

/-- **Following a chain does not run out of links**: it comes to what the chain comes to. -/
theorem chain_followFrom (hg₀ : g₀.Consistent) {g : Graph} {start : Location} {links : Nat} {visited : List Location}
    {source : Loaded} (hg : Grows files g₀ g) (hsource : g₀.Yields files source) (hnodup : visited.Nodup)
    (hvisited : ∀ l ∈ visited, l = start ∨ g₀.HasNode files l) (hlinks : g₀.size files ≤ links + visited.length)
    (p : Path) :
    Chain (fun id => (g₀.load files id).1) visited source p (followFrom files links g visited source p).1 ∧
      Grows files g (followFrom files links g visited source p).2 := by
  by_cases hstop : ∀ e, source.references.edge? p = some e → e.target ∈ visited
  · obtain ⟨hchain, hgraph⟩ := chain_of_stop files g links hstop
      fun id => (g₀.load files id).1
    refine ⟨hchain, ?_⟩
    rw [hgraph]
    exact .refl files hg.consistent
  simp only [not_forall] at hstop
  obtain ⟨e, hedge, hfresh⟩ := hstop
  obtain ⟨next, hnext, hid, hnode⟩ := hsource.target hg₀ (ReferenceTable.mem_of_edge? hedge)
  have hlanded : ∀ l ∈ e.target :: visited, l = start ∨ g₀.HasNode files l := by
    intro l hl
    rcases List.mem_cons.mp hl with rfl | hl
    · exact .inr ⟨next, hnext, hid, hnode⟩
    · exact hvisited l hl
  have hall : (e.target :: visited).Nodup := List.nodup_cons.mpr ⟨hfresh, hnodup⟩
  cases links with
  | zero =>
    -- one node more would have been landed on than there are
    have hnodes : ∀ l ∈ (e.target :: visited).erase start, g₀.HasNode files l := by
      intro l hl
      obtain ⟨hne, hl⟩ := hall.mem_erase_iff.mp hl
      exact (hlanded l hl).resolve_left hne
    have hlt := hg₀.length_lt_size (hall.erase start) hnodes
    rw [List.length_erase, List.length_cons] at hlt
    split at hlt <;> omega
  | succ links =>
    have hleft : g₀.size files ≤ links + (e.target :: visited).length := by
      rw [List.length_cons]
      omega
    rw [followFrom]
    simp only [hedge, if_neg hfresh]
    by_cases hown : e.target.document = source.id
    · rw [if_pos hown]
      rw [hown] at hnext
      obtain rfl : source = next := Except.ok.inj (hsource.symm.trans hnext)
      obtain ⟨hchain, hgrows⟩ := chain_followFrom hg₀ hg hsource hall hlanded hleft e.target.path
      exact ⟨.goes hedge hfresh (hown.symm ▸ hsource) hchain, hgrows⟩
    · rw [if_neg hown]
      have hload := (settled_load hg₀ files e.target.document).grows g hg
      have hanswer := (settled_load hg₀ files e.target.document).same g hg
      obtain ⟨hchain, hgrows⟩ := chain_followFrom hg₀ (hg.trans hload) (yields_of_load hg₀ hnext) hall hlanded
        hleft e.target.path
      cases hloaded : g.load files e.target.document with
      | mk answer after =>
        rw [hloaded] at hanswer hload hgrows hchain
        obtain rfl : answer = .ok next := hanswer.trans hnext
        exact ⟨.goes hedge hfresh hnext hchain, hload.trans hgrows⟩
termination_by links

/-- What following a chain comes to, said without the graph. -/
theorem chain_followLoaded (hg₀ : g₀.Consistent) (hg : Grows files g₀ g) {source : Loaded}
    (hsource : g₀.Yields files source) (p : Path) :
    Chain (fun id => (g₀.load files id).1) [⟨source.id, p⟩] source p (g.followLoaded files source p).1 ∧
      Grows files g (g.followLoaded files source p).2 := by
  have hanswers : (fun id => (g₀.load files id).1) = fun id => (g.load files id).1 := by
    funext id
    exact ((settled_load hg₀ files id).same g hg).symm
  rw [hanswers]
  refine chain_followFrom hg.consistent (.refl files hg.consistent) (hsource.grows hg₀ hg)
    (List.nodup_singleton _) (fun l hl => .inl (List.mem_singleton.mp hl)) (Nat.le_succ _) p

theorem settled_followLoaded (hg₀ : g₀.Consistent) {source : Loaded} (hsource : g₀.Yields files source) (p : Path) :
    Settled files g₀ fun g => g.followLoaded files source p := by
  refine ⟨fun g hg => (chain_followLoaded hg₀ hg hsource p).2, fun g hg => ?_⟩
  exact (chain_followLoaded hg₀ hg hsource p).1.unique (chain_followLoaded hg₀ (.refl files hg₀) hsource p).1

/-- **Following a chain of references is settled.** -/
theorem settled_follow (hg₀ : g₀.Consistent) (files : FileSystem) (id : DocumentId) (p : Path) :
    Settled files g₀ fun g => g.follow files id p :=
  .of_load hg₀ id (fun _ => rfl) fun _ hsource => (settled_followLoaded hg₀ hsource p).map

/-- What following comes to does not depend on what was asked for before. -/
theorem chain_follow (hg₀ : g₀.Consistent) (hg : Grows files g₀ g) {d : Loaded}
    (hload : (g₀.load files id).1 = .ok d) (p : Path) :
    ∃ r, (g.follow files id p).1 = .ok r ∧ Chain (fun id => (g₀.load files id).1) [⟨d.id, p⟩] d p r := by
  refine ⟨((g.load files id).2.followLoaded files d p).1, ?_, ?_⟩
  · have hsame := (settled_load hg₀ files id).same g hg
    rw [follow]
    cases hanswer : g.load files id with
    | mk answer after =>
      rw [hanswer] at hsame
      obtain rfl : answer = .ok d := hsame.trans hload
      rfl
  · have hafter := hg.trans ((settled_load hg₀ files id).grows g hg)
    exact (chain_followLoaded hg₀ hafter (yields_of_load hg₀ hload) p).1

end

end ApiLint.Graph
