import ApiLint.Proofs.DocumentOrder
import ApiLint.Proofs.Graph.Sessions

/-!
# Every reference is in the table

A reference object is an object whose member `$ref` is a string, wherever in a document it stands.
`ReferenceTable.Partitions` says that a table has each of them once, as an edge or as an error, in document
order and as it is written, and nothing else.  It holds of every document that is loaded
(`Session.partitions_of_load`), and every edge leads to a node of a document that the graph has.
-/

namespace ApiLint

/-! ### The reference objects of a value -/

namespace Value

/-- At `p` stands a reference object with the text `r`. -/
def IsSite (v : Value) (p : Path) (r : String) : Prop :=
  ∃ members, v.get? p = some (.object members) ∧ List.lookup "$ref" members = some (.string r)

variable {v : Value} {p : Path} {r : String}

theorem reference?_eq_some_iff :
    v.reference? = some r ↔ ∃ members, v = .object members ∧ List.lookup "$ref" members = some (.string r) := by
  constructor
  · intro h
    obtain ⟨w, hw, hr⟩ := Option.bind_eq_some_iff.mp h
    cases v with
    | object members =>
      cases w with
      | string text =>
        cases hr
        exact ⟨members, rfl, hw⟩
      | _ => cases hr
    | _ => cases hw
  · rintro ⟨members, rfl, hr⟩
    exact Option.bind_eq_some_iff.mpr ⟨.string r, hr, rfl⟩

theorem mem_references_iff (h : v.HasDistinctNames) : (p, r) ∈ v.references ↔ v.IsSite p r := by
  constructor
  · intro hsite
    obtain ⟨⟨q, w⟩, hn, hr⟩ := List.mem_filterMap.mp hsite
    obtain ⟨text, htext, heq⟩ := Option.map_eq_some_iff.mp hr
    obtain ⟨rfl, rfl⟩ := Prod.mk.inj heq
    obtain ⟨members, rfl, hlookup⟩ := reference?_eq_some_iff.mp htext
    exact ⟨members, (mem_nodes_iff h).mp hn, hlookup⟩
  · rintro ⟨members, hp, hlookup⟩
    refine List.mem_filterMap.mpr ⟨(p, .object members), mem_nodes_of_get? hp, ?_⟩
    exact Option.map_eq_some_iff.mpr ⟨r, reference?_eq_some_iff.mpr ⟨members, rfl, hlookup⟩, rfl⟩

/-- References are listed in document order. -/
theorem pairwise_references (v : Value) : (v.references.map Prod.fst).Pairwise v.Before := by
  rw [List.pairwise_map]
  refine v.pairwise_nodes.filterMap _ fun m n hmn a ha b hb => ?_
  obtain ⟨_, -, rfl⟩ := Option.map_eq_some_iff.mp ha
  obtain ⟨_, -, rfl⟩ := Option.map_eq_some_iff.mp hb
  exact hmn

end Value

/-! ### Tables -/

def Edge.site (e : Edge) : Path × String :=
  (e.origin, e.reference)

/-- The place of a reference and its text. -/
def ReferenceError.site (e : ReferenceError) : Path × String :=
  (e.origin, e.reference)

namespace ReferenceTable

/-- The table has the reference objects of `v`, and each of them once. -/
structure Partitions (t : ReferenceTable) (v : Value) : Prop where
  sites : ∀ p r, (p, r) ∈ t.edges.map Edge.site ++ t.unresolved.map ReferenceError.site ↔ v.IsSite p r
  once : (t.edges.map Edge.origin ++ t.unresolved.map ReferenceError.origin).Nodup
  edges : (t.edges.map Edge.origin).Pairwise v.Before
  unresolved : (t.unresolved.map ReferenceError.origin).Pairwise v.Before

/-- Where an error stands there is no edge. -/
theorem Partitions.edge?_eq_none {t : ReferenceTable} {v : Value} (h : t.Partitions v) {e : ReferenceError}
    (he : e ∈ t.unresolved) : t.edge? e.origin = none := by
  obtain ⟨-, -, hapart⟩ := List.nodup_append.mp h.once
  refine List.find?_eq_none.mpr fun e' he' horigin => ?_
  exact hapart _ (List.mem_map_of_mem he') _ (List.mem_map_of_mem he) (of_decide_eq_true horigin)

variable {found : Path × String → Except ReferenceError Location} {sites : List (Path × String)}

theorem sites_of_edges (found : Path × String → Except ReferenceError Location)
    (sites : List (Path × String)) :
    (ofSites found sites).edges.map Edge.site = sites.filter fun s => (found s).isOk := by
  induction sites with
  | nil => rfl
  | cons s sites ih =>
    rw [ofSites_cons]
    cases hfound : found s with
    | ok target =>
      rw [List.filter_cons_of_pos (by rw [hfound]; rfl), ← ih]
      rfl
    | error e =>
      rw [List.filter_cons_of_neg (by rw [hfound]; exact Bool.false_ne_true), ← ih]

theorem sites_of_unresolved (h : ∀ s e, found s = .error e → e.site = s) (sites : List (Path × String)) :
    (ofSites found sites).unresolved.map ReferenceError.site = sites.filter fun s => !(found s).isOk := by
  induction sites with
  | nil => rfl
  | cons s sites ih =>
    rw [ofSites_cons]
    cases hfound : found s with
    | ok target =>
      rw [List.filter_cons_of_neg (by rw [hfound]; exact Bool.false_ne_true), ← ih]
    | error e =>
      rw [List.filter_cons_of_pos (by rw [hfound]; rfl), ← ih, List.map_cons, h s e hfound]

/-- Sorting the references of a value into edges and errors loses none and doubles none. -/
theorem partitions_ofSites (h : ∀ s e, found s = .error e → e.site = s) {v : Value}
    (hv : v.HasDistinctNames) : (ofSites found v.references).Partitions v := by
  have hedges := sites_of_edges found v.references
  have hunresolved := sites_of_unresolved h v.references
  have hsites_edges : (v.references.filter fun s => (found s).isOk).map Prod.fst
      = (ofSites found v.references).edges.map Edge.origin := by
    rw [← hedges, List.map_map]
    rfl
  have hsites_unresolved : (v.references.filter fun s => !(found s).isOk).map Prod.fst
      = (ofSites found v.references).unresolved.map ReferenceError.origin := by
    rw [← hunresolved, List.map_map]
    rfl
  have hperm := List.filter_append_perm (fun s => (found s).isOk) v.references
  have horder := v.pairwise_references
  refine ⟨fun p r => ?_, ?_, ?_, ?_⟩
  · rw [hedges, hunresolved, hperm.mem_iff, Value.mem_references_iff hv]
  · have horigins : (v.references.map Prod.fst).Nodup := horder.imp fun hab => hab.ne hv
    rw [← hsites_edges, ← hsites_unresolved, ← List.map_append]
    exact (hperm.map Prod.fst).nodup_iff.mpr horigins
  · rw [← hsites_edges]
    exact horder.sublist (List.filter_sublist.map Prod.fst)
  · rw [← hsites_unresolved]
    exact horder.sublist (List.filter_sublist.map Prod.fst)

end ReferenceTable

/-! ### Loaded documents -/

namespace Graph

variable {g : Graph} {l : Loaded}

/-- An error says in which document and where the reference stands, and what it is. -/
theorem designated_error {source : Document} {origin : Path} {reference : String} {e : ReferenceError}
    {named : Option (DocumentId × Except LoadError Document)}
    (h : designated source origin reference named = .error e) :
    e.document = source.id ∧ e.site = (origin, reference) := by
  have hpointed : ∀ {tokens : List String} {target : Document},
      pointed source origin reference tokens target = .error e →
      e.document = source.id ∧ e.site = (origin, reference) := by
    intro tokens target hp
    rw [pointed] at hp
    cases hfollow : target.value.follow? tokens with
    | none =>
      rw [hfollow] at hp
      cases hp
      exact ⟨rfl, rfl⟩
    | some p =>
      rw [hfollow] at hp
      cases hp
  rw [designated] at h
  cases hr : Reference.ofText? reference with
  | none =>
    rw [hr] at h
    cases h
    exact ⟨rfl, rfl⟩
  | some r =>
    rw [hr] at h
    cases named with
    | none => exact hpointed h
    | some n =>
      obtain ⟨id, o⟩ := n
      cases o with
      | error cause =>
        cases h
        exact ⟨rfl, rfl⟩
      | ok target => exact hpointed h

theorem Consistent.hasDistinctNames (hg : g.Consistent) (hl : g.Holds l) :
    l.document.value.HasDistinctNames := by
  obtain ⟨tree, htree, hd⟩ := Document.exists_of_read (hg.contents _ _ hl.document)
  rw [hd]
  exact Json.hasDistinctNames_of_read htree

theorem Consistent.partitions (hg : g.Consistent) (hl : g.Holds l) :
    l.references.Partitions l.document.value ∧ ∀ e ∈ l.references.unresolved, e.document = l.id := by
  rw [(hg.table_eq hl).2, tableOf]
  refine ⟨ReferenceTable.partitions_ofSites (fun s e hfound => (designated_error hfound).2)
    (hg.hasDistinctNames hl), fun e he => ?_⟩
  obtain ⟨s, -, hfound⟩ := ReferenceTable.exists_site_of_error he
  exact (designated_error hfound).1

end Graph

/-- **The references of every document that is loaded are in its table, each of them once.** -/
theorem Session.partitions_of_load {base : FilePath} (hbase : base.isAbsolute = true) {s : Session}
    (hs : s.From base) {p : FilePath} {l : Loaded} {g : Graph} (h : s.graph.load s.files p = (.ok l, g)) :
    l.references.Partitions l.document.value ∧ (∀ e ∈ l.references.unresolved, e.document = l.id) ∧
      ∀ e ∈ l.references.edges, ∃ d, g.get e.target.document = .ok d ∧ d ∈ g.documents ∧
        d.id = e.target.document ∧ (d.valueAt? e.target.path).isSome := by
  have hload := (hs.consistent hbase).loading s.files p
  rw [h] at hload
  have hg := hload.consistent
  have hl := hload.holds l rfl
  obtain ⟨htable, hunresolved⟩ := hg.partitions hl
  refine ⟨htable, hunresolved, fun e he => ?_⟩
  obtain ⟨d, hd, hnode⟩ := hg.target hl he
  have hid := Graph.mem_ids_iff.mpr ⟨_, hd⟩
  have hget : g.get e.target.document = .ok d := Graph.get_of_outcome? (by rw [hg.canonical _ hid]; exact hd)
  refine ⟨d, hget, ?_, hg.id_eq hd, hnode⟩
  rw [hg.documents_eq]
  exact List.mem_filterMap.mpr ⟨e.target.document, hid, by rw [hget]; rfl⟩

/-- A document that is a reference object as a whole, with further ones in it: two of the three lead to a
node. -/
theorem Session.partitions_of_load_nested : ∃ s : Session, ∃ l g,
    (⟨"/"⟩ : FilePath).isAbsolute = true ∧ s.From ⟨"/"⟩ ∧ s.graph.load s.files ⟨"a.json"⟩ = (.ok l, g) ∧
      l.references.edges.length = 2 ∧ l.references.unresolved.length = 1 ∧
      l.references.Partitions l.document.value ∧
      ∀ e ∈ l.references.edges, ∃ d, g.get e.target.document = .ok d := by
  let files : FileSystem := ⟨[
    (⟨"/a.json"⟩, "\x7b\"$ref\":\"b.json\",\"x\":[\x7b\"$ref\":\"#/x\"\x7d,\x7b\"$ref\":\"#y\"\x7d]\x7d"),
    (⟨"/b.json"⟩, "1")], fun _ => "no such file"⟩
  have hbase : (⟨"/"⟩ : FilePath).isAbsolute = true := by decide +kernel
  have hlengths : ((Graph.load files (.empty ⟨"/"⟩) ⟨"a.json"⟩).1.toOption.map fun l =>
      (l.references.edges.length, l.references.unresolved.length)) = some (2, 1) := by
    decide +kernel
  have hfrom : (⟨files, .empty ⟨"/"⟩⟩ : Session).From ⟨"/"⟩ := ⟨files, [], rfl⟩
  cases hload : Graph.load files (.empty ⟨"/"⟩) ⟨"a.json"⟩ with
  | mk answer g =>
    rw [hload] at hlengths
    cases answer with
    | error e => cases hlengths
    | ok l =>
      obtain ⟨hedges, hunresolved⟩ := Prod.mk.inj (Option.some.inj hlengths)
      obtain ⟨htable, -, htargets⟩ := partitions_of_load hbase hfrom hload
      refine ⟨_, l, g, hbase, hfrom, hload, hedges, hunresolved, htable, fun e he => ?_⟩
      obtain ⟨d, hd, -⟩ := htargets e he
      exact ⟨d, hd⟩

end ApiLint
