import ApiLint.Proofs.Graph.Growth

/-!
# Graphs are consistent

`Graph.Consistent` is what holds of every graph that starts empty in an absolute base directory: there is one
entry for every id and one read for every entry, ids are canonical, a document is what its content reads as,
and a table says what the known documents say.  Whatever a graph is asked for, it stays consistent.

`Loading` says all that loading a path does (`Consistent.loading`).  The other operations load further
documents, one after another and each of them asked for before; `Graph.Loads` writes such a sequence down, and
what is preserved by one load is then preserved by all (`Loads.grows`).
-/

namespace ApiLint

/-! ### Documents that were read -/

theorem Document.exists_of_read {id : DocumentId} {content : String} {d : Document}
    (h : Document.read id content = .ok d) :
    ∃ tree, Json.read content = .ok tree ∧ d = ⟨id, content, tree.value, tree.positions⟩ := by
  rw [Document.read] at h
  cases htree : Json.read content with
  | error e =>
    rw [htree] at h
    cases h
  | ok tree =>
    rw [htree] at h
    exact ⟨tree, rfl, (Except.ok.inj h).symm⟩

theorem Document.id_of_read {id : DocumentId} {content : String} {d : Document}
    (h : Document.read id content = .ok d) : d.id = id := by
  obtain ⟨tree, -, rfl⟩ := exists_of_read h
  rfl

theorem Value.isSome_get?_of_follow? {v : Value} {tokens : List String} {p : Path}
    (h : v.follow? tokens = some p) : (v.get? p).isSome := by
  induction tokens generalizing v p with
  | nil =>
    cases h
    rfl
  | cons token tokens ih =>
    rw [follow?] at h
    obtain ⟨s, -, hs⟩ := Option.bind_eq_some_iff.mp h
    obtain ⟨c, hc, hrest⟩ := Option.bind_eq_some_iff.mp hs
    obtain ⟨q, hq, hp⟩ := Option.bind_eq_some_iff.mp hrest
    cases hp
    rw [get?_cons, hc, Option.bind_some]
    exact ih hq

namespace Graph

section

variable {g h k : Graph} {id : DocumentId} {files : FileSystem} {p : FilePath} {d : Document} {l : Loaded}
  {e : LoadError} {t : ReferenceTable} {asked : List DocumentId}

theorem read_of_fetch (h : fetch files id = .ok d) : Document.read id d.content = .ok d := by
  rw [fetch] at h
  cases hfile : files.read id with
  | error message =>
    rw [hfile] at h
    cases h
  | ok content =>
    rw [hfile] at h
    cases hread : Document.read id content with
    | error cause =>
      simp only [hread] at h
      cases h
    | ok d' =>
      simp only [hread] at h
      obtain rfl := Except.ok.inj h
      obtain ⟨tree, -, rfl⟩ := Document.exists_of_read hread
      exact hread

theorem pointed_ok {source target : Document} {origin : Path} {reference : String} {tokens : List String}
    {place : Location} (h : pointed source origin reference tokens target = .ok place) :
    place.document = target.id ∧ (target.valueAt? place.path).isSome := by
  rw [pointed] at h
  cases hp : target.value.follow? tokens with
  | none =>
    rw [hp] at h
    cases h
  | some p =>
    rw [hp] at h
    cases h
    exact ⟨rfl, Value.isSome_get?_of_follow? hp⟩

/-- What a reference designates is a node of the document that it names, or of its own. -/
theorem designated_ok {source : Document} {origin : Path} {reference : String} {place : Location}
    {named : Option (DocumentId × Except LoadError Document)}
    (h : designated source origin reference named = .ok place) :
    ∃ target, (named = none ∧ target = source ∨ ∃ id, named = some (id, .ok target)) ∧
      place.document = target.id ∧ (target.valueAt? place.path).isSome := by
  rw [designated] at h
  cases hr : Reference.ofText? reference with
  | none =>
    rw [hr] at h
    cases h
  | some r =>
    rw [hr] at h
    cases named with
    | none => exact ⟨source, .inl ⟨rfl, rfl⟩, pointed_ok h⟩
    | some n =>
      obtain ⟨id, o⟩ := n
      cases o with
      | error e => cases h
      | ok target => exact ⟨target, .inr ⟨id, rfl⟩, pointed_ok h⟩

/-! ### Consistent graphs -/

/-- What holds of every graph that starts empty. -/
structure Consistent (g : Graph) : Prop where
  absolute : g.base.isAbsolute = true
  nodup : g.ids.Nodup
  reads : g.reads = g.ids.length
  canonical : ∀ id ∈ g.ids, g.canonical id = id
  contents : ∀ id d, g.outcome? id = some (.ok d) → Document.read id d.content = .ok d
  tables : ∀ id t, g.table? id = some t →
    ∃ d, g.outcome? id = some (.ok d) ∧ (∀ i ∈ g.targets d, i ∈ g.ids) ∧ t = g.tableOf d

/-- The document and its table are what the graph has under its id. -/
structure Holds (g : Graph) (l : Loaded) : Prop where
  document : g.outcome? l.id = some (.ok l.document)
  references : g.table? l.id = some l.references

theorem Holds.extend (hl : g.Holds l) (hgh : g.Extends h) : h.Holds l :=
  ⟨hgh.outcome? hl.document, hgh.tables _ _ hl.references⟩

theorem consistent_empty {base : FilePath} (hbase : base.isAbsolute = true) : (empty base).Consistent where
  absolute := hbase
  nodup := List.nodup_nil
  reads := rfl
  canonical := fun _ h => absurd h (List.not_mem_nil)
  contents := fun _ _ h => by cases h
  tables := fun _ _ h => by cases h

namespace Consistent

theorem id_eq (hg : g.Consistent) (ho : g.outcome? id = some (.ok d)) : d.id = id :=
  Document.id_of_read (hg.contents id d ho)

theorem add (hg : g.Consistent) (hcanonical : g.canonical id = id) (hnew : id ∉ g.ids)
    {o : Except LoadError Document} (ho : ∀ d, o = .ok d → Document.read id d.content = .ok d) :
    (g.add id o).Consistent where
  absolute := hg.absolute
  nodup := by
    rw [ids_add]
    refine List.nodup_append.mpr ⟨hg.nodup, List.pairwise_singleton .., fun i hi j hj => ?_⟩
    rw [List.mem_singleton.mp hj]
    rintro rfl
    exact hnew hi
  reads := by
    rw [ids_add, List.length_append, ← hg.reads]
    rfl
  canonical := by
    intro i hi
    rw [(Extends.add g id o).canonical]
    rw [ids_add, List.mem_append, List.mem_singleton] at hi
    rcases hi with hi | rfl
    · exact hg.canonical i hi
    · exact hcanonical
  contents := by
    intro i d hd
    by_cases hi : id = i
    · subst hi
      rw [outcome?_add, outcome?_eq_none_iff.mpr hnew, if_pos rfl, Option.none_or] at hd
      exact ho d (Option.some.inj hd)
    · rw [outcome?_add, if_neg hi, Option.or_none] at hd
      exact hg.contents i d hd
  tables := by
    intro i t ht
    rw [table?_add] at ht
    obtain ⟨d, hd, htargets, rfl⟩ := hg.tables i t ht
    have hext := Extends.add g id o
    refine ⟨d, hext.outcome? hd, fun j hj => ?_, (hext.tableOf_eq htargets).symm⟩
    rw [hext.targets] at hj
    exact hext.ids.subset (htargets j hj)

theorem setReferences (hg : g.Consistent) (hd : g.outcome? id = some (.ok d))
    (htargets : ∀ i ∈ g.targets d, i ∈ g.ids) (hnone : g.table? id = none) :
    (g.setReferences id (g.tableOf d)).Consistent := by
  have hext : g.Extends (g.setReferences id (g.tableOf d)) := .setReferences hnone _
  have houtcome := outcome?_setReferences g id
  have hids := ids_setReferences g id (g.tableOf d)
  refine ⟨hg.absolute, hids ▸ hg.nodup, hids ▸ hg.reads, fun i hi => ?_, fun i d' hd' => ?_, ?_⟩
  · rw [hids] at hi
    rw [hext.canonical, hg.canonical i hi]
  · rw [houtcome] at hd'
    exact hg.contents i d' hd'
  · intro i t ht
    -- a table is the new one or one from before, and either says what is still known
    have hold : ∃ d, g.outcome? i = some (.ok d) ∧ (∀ j ∈ g.targets d, j ∈ g.ids) ∧ t = g.tableOf d := by
      rw [table?_setReferences] at ht
      split at ht
      · next hi =>
        obtain ⟨rfl, -⟩ := hi
        exact ⟨d, hd, htargets, (Option.some.inj ht).symm⟩
      · exact hg.tables i t ht
    obtain ⟨d', hd', htargets', rfl⟩ := hold
    refine ⟨d', (houtcome i _).trans hd', fun j hj => ?_, (hext.tableOf_eq htargets').symm⟩
    rw [hext.targets] at hj
    rw [hids]
    exact htargets' j hj

/-- A table says what is known of the references of its document. -/
theorem table_eq (hg : g.Consistent) (hl : g.Holds l) :
    (∀ i ∈ g.targets l.document, i ∈ g.ids) ∧ l.references = g.tableOf l.document := by
  obtain ⟨d, hd, htargets, htable⟩ := hg.tables _ _ hl.references
  have hdocument : d = l.document := by
    have hsame := hd.symm.trans hl.document
    cases hsame
    rfl
  rw [hdocument] at htargets htable
  exact ⟨htargets, htable⟩

/-- What an edge of a document leads to is there. -/
theorem target (hg : g.Consistent) (hl : g.Holds l) {edge : Edge} (hedge : edge ∈ l.references.edges) :
    ∃ d, g.outcome? edge.target.document = some (.ok d) ∧ (d.valueAt? edge.target.path).isSome := by
  rw [(hg.table_eq hl).2, tableOf] at hedge
  obtain ⟨s, -, hfound⟩ := ReferenceTable.exists_site_of_edge hedge
  obtain ⟨d, hnamed, hdocument, hnode⟩ := designated_ok hfound
  refine ⟨d, ?_, hnode⟩
  rw [hdocument]
  rcases hnamed with ⟨-, rfl⟩ | ⟨id, hnamed⟩
  · exact hl.document
  · obtain ⟨i, -, ho⟩ := Option.bind_eq_some_iff.mp hnamed
    obtain ⟨o, ho, heq⟩ := Option.map_eq_some_iff.mp ho
    cases heq
    rw [hg.id_eq ho]
    exact ho

theorem outcome?_of_mem (hg : g.Consistent) {o : DocumentId × Except LoadError Document} (ho : o ∈ g.outcomes) :
    g.outcome? o.1 = some o.2 := by
  have hnodup : (g.outcomes.map Prod.fst).Nodup := ids_eq_map_outcomes g ▸ hg.nodup
  rw [outcome?_eq, find?_key hnodup ho]
  rfl

/-- A document of the graph is what is known of its id. -/
theorem outcome?_of_mem_documents (hg : g.Consistent) (hd : d ∈ g.documents) : g.outcome? d.id = some (.ok d) := by
  rw [Graph.documents_eq] at hd
  obtain ⟨⟨id, answer⟩, ho, hanswer⟩ := List.mem_filterMap.mp hd
  have hknown := hg.outcome?_of_mem ho
  cases answer with
  | error e => cases hanswer
  | ok d' =>
    cases hanswer
    rwa [hg.id_eq hknown]

/-- What is known of an id is found under it. -/
theorem get_of_outcome? {o : Except LoadError Document} (hg : g.Consistent) (ho : g.outcome? id = some o) :
    g.get id = o := by
  refine Graph.get_of_outcome? ?_
  rw [hg.canonical id (mem_ids_iff.mpr ⟨o, ho⟩)]
  exact ho

/-- The documents, by the ids asked for. -/
theorem documents_eq (hg : g.Consistent) :
    g.documents = g.ids.filterMap fun id => (g.get id).toOption := by
  rw [Graph.documents_eq, ids_eq_map_outcomes, List.filterMap_map]
  refine List.filterMap_congr fun o ho => ?_
  rw [Function.comp_apply, hg.get_of_outcome? (hg.outcome?_of_mem ho)]

theorem asks (hg : g.Consistent) (hgh : Asks files g asked h) : h.Consistent := by
  induction hgh with
  | nil => exact hg
  | @cons g h asked p _ ih =>
    cases ho : g.outcome? (g.canonical p) with
    | some o =>
      rw [loadParsed_of_some ho] at ih
      exact ih hg
    | none =>
      rw [loadParsed_of_none ho] at ih
      refine ih (hg.add ?_ (outcome?_eq_none_iff.mp ho) fun d hd => read_of_fetch hd)
      exact FilePath.canonical_canonical hg.absolute p

end Consistent

/-! ### Loading -/

/-- The ids that loading a path asks for: its own, and those that the references of the document name. -/
def requests (files : FileSystem) (g : Graph) (p : FilePath) : List DocumentId :=
  match (g.loadParsed files p).1 with
  | .error _ => [g.canonical p]
  | .ok d => g.canonical p :: g.targets d

theorem load_eq (files : FileSystem) (g : Graph) (p : FilePath) :
    g.load files p =
      let parsed := (g.loadParsed files p).2
      match (g.loadParsed files p).1 with
      | .error e => (.error e, parsed)
      | .ok d =>
        match parsed.table? d.id with
        | some table => (.ok ⟨d, table⟩, parsed)
        | none =>
          let resolved := resolveAll files d d.value.references parsed
          (.ok ⟨d, resolved.1⟩, resolved.2.setReferences d.id resolved.1) := by
  rw [load]
  cases g.loadParsed files p with
  | mk answer parsed =>
    cases answer with
    | error e => rfl
    | ok d => rfl

/-- What came of `g` grew out of it, and what is new was fetched from the files. -/
structure Grows (files : FileSystem) (g h : Graph) : Prop extends Extends g h where
  consistent : h.Consistent
  fetched : ∀ id o, id ∉ g.ids → h.outcome? id = some o → o = fetch files id

theorem Grows.refl (files : FileSystem) (hg : g.Consistent) : Grows files g g :=
  ⟨.refl g, hg, fun _ o hnew ho => absurd (mem_ids_iff.mpr ⟨o, ho⟩) hnew⟩

theorem Grows.trans (hgh : Grows files g h) (hhk : Grows files h k) : Grows files g k := by
  refine ⟨hgh.toExtends.trans hhk.toExtends, hhk.consistent, fun id o hnew ho => ?_⟩
  by_cases hid : id ∈ h.ids
  · obtain ⟨o', ho'⟩ := mem_ids_iff.mp hid
    have hsame := (hhk.outcome? ho').symm.trans ho
    cases hsame
    exact hgh.fetched id o hnew ho'
  · exact hhk.fetched id o hid ho

theorem Asks.grows (hgh : Asks files g asked h) (hg : g.Consistent) : Grows files g h :=
  ⟨hgh.toExtends, hg.asks hgh, fun _ _ hnew ho => hgh.outcome?_eq_fetch hnew ho⟩

structure Loading (files : FileSystem) (g : Graph) (p : FilePath) (answer : Except LoadError Loaded)
    (h : Graph) : Prop extends Grows files g h where
  ids_eq : h.ids = (g.requests files p).foldl enlist g.ids
  answered : h.outcome? (g.canonical p) = some (answer.map Loaded.document)
  holds : ∀ l, answer = .ok l → h.Holds l

theorem foldl_enlist_of_subset {asked ids : List DocumentId} (h : ∀ id ∈ asked, id ∈ ids) :
    asked.foldl enlist ids = ids := by
  induction asked with
  | nil => rfl
  | cons id asked ih =>
    rw [List.foldl_cons, enlist, if_pos (h id (List.mem_cons_self ..))]
    exact ih fun i hi => h i (List.mem_cons_of_mem id hi)

/-- Resolving the references of a document asks for the documents that they name. -/
theorem Consistent.resolving (hg : g.Consistent) (hd : g.outcome? d.id = some (.ok d))
    (hnone : g.table? d.id = none) (files : FileSystem) {resolved : ReferenceTable × Graph}
    (hresolved : resolveAll files d d.value.references g = resolved) :
    Grows files g (resolved.2.setReferences d.id resolved.1) ∧
      (resolved.2.setReferences d.id resolved.1).ids = (g.targets d).foldl enlist g.ids ∧
      (resolved.2.setReferences d.id resolved.1).Holds ⟨d, resolved.1⟩ := by
  have hasks : Asks files g (g.targets d) resolved.2 :=
    hresolved ▸ asks_resolveAll hg.absolute files d d.value.references
  have htable : resolved.1 = resolved.2.tableOf d := by
    rw [← hresolved]
    exact resolveAll_fst_eq hg.absolute d (Extends.refl _)
  have hgrows := hasks.grows hg
  have hd' := hasks.toExtends.outcome? hd
  have hnone' : resolved.2.table? d.id = none := by rw [hasks.table?, hnone]
  have htargets : ∀ i ∈ resolved.2.targets d, i ∈ resolved.2.ids := by
    intro i hi
    rw [hasks.toExtends.targets] at hi
    rw [hasks.ids_eq]
    exact mem_foldl_enlist.mpr (.inr hi)
  refine ⟨⟨hasks.toExtends.trans (.setReferences hnone' _), ?_, fun i o hnew ho => ?_⟩, ?_, ?_, ?_⟩
  · rw [htable]
    exact hgrows.consistent.setReferences hd' htargets hnone'
  · rw [outcome?_setReferences] at ho
    exact hgrows.fetched i o hnew ho
  · rw [ids_setReferences, hasks.ids_eq]
  · rw [outcome?_setReferences]
    exact hd'
  · rw [table?_setReferences]
    exact if_pos ⟨rfl, mem_ids_iff.mpr ⟨_, hd'⟩⟩

/-- **Loading keeps a graph consistent**, and adds the paths asked for in order. -/
theorem Consistent.loading (hg : g.Consistent) (files : FileSystem) (p : FilePath) :
    Loading files g p (g.load files p).1 (g.load files p).2 := by
  have hasks := asks_loadParsed files g p
  have hids : (g.loadParsed files p).2.ids = enlist g.ids (g.canonical p) := hasks.ids_eq
  have hanswer := outcome?_loadParsed files g p
  have hgrows := hasks.grows hg
  rw [load_eq]
  cases hparsed : (g.loadParsed files p).1 with
  | error e =>
    rw [hparsed] at hanswer
    exact ⟨hgrows, by rw [requests, hparsed]; exact hids, hanswer, fun l hl => by cases hl⟩
  | ok d =>
    rw [hparsed] at hanswer
    have hid : d.id = g.canonical p := hgrows.consistent.id_eq hanswer
    have hd : (g.loadParsed files p).2.outcome? d.id = some (.ok d) := hid.symm ▸ hanswer
    have htargets := hgrows.toExtends.targets d
    have hrequests : (g.requests files p).foldl enlist g.ids
        = (g.targets d).foldl enlist (g.loadParsed files p).2.ids := by
      rw [requests, hparsed, hids]
      rfl
    cases htable : (g.loadParsed files p).2.table? d.id with
    | some t =>
      have hholds : (g.loadParsed files p).2.Holds ⟨d, t⟩ := ⟨hd, htable⟩
      -- the documents that the references name were asked for when the table was made
      have hknown := (hgrows.consistent.table_eq hholds).1
      rw [htargets] at hknown
      simp only [htable]
      refine ⟨hgrows, ?_, hanswer, fun l hl => by cases hl; exact hholds⟩
      rw [hrequests, foldl_enlist_of_subset hknown]
    | none =>
      obtain ⟨hgrown, hids', hholds⟩ := hgrows.consistent.resolving hd htable files rfl
      simp only [htable]
      refine ⟨hgrows.trans hgrown, ?_, hid ▸ hholds.document, fun l hl => by cases hl; exact hholds⟩
      rw [hrequests, hids', htargets]

/-- With its references or without them, a path is answered by the same document. -/
theorem map_load (files : FileSystem) (g : Graph) (p : FilePath) :
    (g.load files p).1.map Loaded.document = (g.loadParsed files p).1 := by
  rw [load_eq]
  cases (g.loadParsed files p).1 with
  | error e => rfl
  | ok d =>
    cases htable : (g.loadParsed files p).2.table? d.id with
    | some t =>
      simp only [htable]
      rfl
    | none =>
      simp only [htable]
      rfl

theorem exists_load_of_loadParsed (h : (g.loadParsed files p).1 = .ok d) :
    ∃ l, (g.load files p).1 = .ok l ∧ l.document = d := by
  have hanswer := map_load files g p
  rw [h] at hanswer
  cases hl : (g.load files p).1 with
  | error e =>
    rw [hl] at hanswer
    cases hanswer
  | ok l =>
    rw [hl] at hanswer
    cases hanswer
    exact ⟨l, rfl, rfl⟩

/-- A document that is there is answered, with its references. -/
theorem Consistent.load_of_known (hg : g.Consistent) (files : FileSystem)
    (ho : g.outcome? id = some (.ok d)) :
    ∃ l, (g.load files id).1 = .ok l ∧ l.document = d := by
  have hid : g.canonical id = id := hg.canonical id (mem_ids_iff.mpr ⟨_, ho⟩)
  exact exists_load_of_loadParsed (by rw [loadParsed_of_some (hid.symm ▸ ho)])

def Names (g : Graph) (id : DocumentId) : Prop :=
  ∃ l, g.Holds l ∧ id ∈ g.targets l.document

theorem Names.extend (hid : g.Names id) (hgh : g.Extends h) : h.Names id := by
  obtain ⟨l, hl, htarget⟩ := hid
  exact ⟨l, hl.extend hgh, by rwa [hgh.targets]⟩

/-- A load asks for its path, and else only for what references name. -/
theorem Consistent.names_of_requests (hg : g.Consistent) (hid : id ∈ g.requests files p) :
    id = g.canonical p ∨ (g.load files p).2.Names id := by
  have hload := hg.loading files p
  rw [requests] at hid
  cases hparsed : (g.loadParsed files p).1 with
  | error e =>
    rw [hparsed] at hid
    exact .inl (List.mem_singleton.mp hid)
  | ok d =>
    rw [hparsed] at hid
    obtain ⟨l, hl, rfl⟩ := exists_load_of_loadParsed hparsed
    refine (List.mem_cons.mp hid).imp_right fun htarget => ⟨l, hload.holds l hl, ?_⟩
    rwa [hload.toExtends.targets]

/-! ### Loading one document after another -/

/-- `h` came of `g` by loading documents that were asked for before, one after another, and `asked` is what
these loads asked for. -/
inductive Loads (files : FileSystem) : Graph → List DocumentId → Graph → Prop
  | nil (g : Graph) : Loads files g [] g
  | cons {g h : Graph} {id : DocumentId} {asked : List DocumentId} : id ∈ g.ids →
    Loads files (g.load files id).2 asked h → Loads files g (g.requests files id ++ asked) h

namespace Loads

variable {asked' : List DocumentId}

theorem append (hgh : Loads files g asked h) (hhk : Loads files h asked' k) :
    Loads files g (asked ++ asked') k := by
  induction hgh with
  | nil => exact hhk
  | cons hid _ ih =>
    rw [List.append_assoc]
    exact .cons hid (ih hhk)

theorem grows (hgh : Loads files g asked h) (hg : g.Consistent) : Grows files g h := by
  induction hgh with
  | nil g => exact .refl files hg
  | @cons g h id asked _ _ ih =>
    have hload := (hg.loading files id).toGrows
    exact hload.trans (ih hload.consistent)

theorem ids_eq (hgh : Loads files g asked h) (hg : g.Consistent) : h.ids = asked.foldl enlist g.ids := by
  induction hgh with
  | nil => rfl
  | @cons g h id asked _ _ ih =>
    have hload := hg.loading files id
    rw [ih hload.consistent, hload.ids_eq, List.foldl_append]

/-- What is asked for was known or is what a reference names. -/
theorem names_of_mem (hgh : Loads files g asked h) (hg : g.Consistent) (hid : id ∈ asked) :
    id ∈ g.ids ∨ h.Names id := by
  induction hgh with
  | nil => exact absurd hid List.not_mem_nil
  | @cons g h i asked hi hrest ih =>
    have hload := hg.loading files i
    have hgrown := hrest.grows hload.consistent
    have hrequested : ∀ j ∈ g.requests files i, j ∈ g.ids ∨ h.Names j := by
      intro j hj
      rcases hg.names_of_requests hj with rfl | hnamed
      · exact .inl (by rwa [hg.canonical i hi])
      · exact .inr (hnamed.extend hgrown.toExtends)
    rcases List.mem_append.mp hid with hfirst | hlater
    · exact hrequested id hfirst
    · rcases ih hload.consistent hlater with hknown | hnamed
      · rw [hload.ids_eq, mem_foldl_enlist] at hknown
        exact hknown.elim .inl (hrequested id)
      · exact .inr hnamed

end Loads

/-- Following a chain loads documents that references name. -/
theorem loads_followFrom (hg : g.Consistent) (hl : g.Holds l) (links : Nat) (visited : List Location)
    (p : Path) : ∃ asked, Loads files g asked (followFrom files links g visited l p).2 := by
  induction links generalizing g l visited p with
  | zero =>
    refine ⟨[], ?_⟩
    rw [followFrom]
    split
    · split <;> exact .nil g
    · split <;> exact .nil g
  | succ links ih =>
    rw [followFrom]
    split
    · refine ⟨[], ?_⟩
      split <;> exact .nil g
    · next edge hedge =>
      split
      · exact ⟨[], .nil g⟩
      · dsimp only
        split
        · exact ih hg hl _ _
        · obtain ⟨d, hd, -⟩ := hg.target hl (ReferenceTable.mem_of_edge? hedge)
          have hid := mem_ids_iff.mpr ⟨_, hd⟩
          have hload := hg.loading files edge.target.document
          split
          · next cause next hnext =>
            have hrest : Loads files (g.load files edge.target.document).2 [] next := by
              rw [hnext]
              exact .nil next
            exact ⟨_, .cons hid hrest⟩
          · next l' next hnext =>
            rw [hnext] at hload
            obtain ⟨asked, hrest⟩ := ih hload.consistent (hload.holds l' rfl) (edge.target :: visited)
              edge.target.path
            exact ⟨_, .cons hid (by rw [hnext]; exact hrest)⟩

end

end Graph

end ApiLint
