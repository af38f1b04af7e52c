import ApiLint.Model
import ApiLint.Proofs.Graph.Histories
import ApiLint.Proofs.View.Cycles

/-!
# Views hold what can be reached

A table has an edge only where the document that a reference names was loaded, and what was loaded is not forgotten.  So
edges stay usable, whatever becomes of the files (`Session.edgesUsable`): the document that an edge leads to can be had,
under the id that the edge names, and it has the node.

`View.Spans` says what this means for a view.  It holds the documents that edges lead to from its root, over one another,
and no others.  Gathering them goes through the steps of `View.Gathering`, in none of which a document fails to load, and
a walk lands on the target of every reference that it may cross.  And no document gets its table by the way but those of the view.

In a session files change between operations.  That they might change during one makes no difference, for a file is read
once at most: what was read of it might have stood there before.
-/

namespace ApiLint

open Relation (ReflTransGen)
open ApiLint.Graph (Grows Chain)

def Graph.Refers (answer : DocumentId → Except LoadError Loaded) (l m : Loaded) : Prop :=
  ∃ e ∈ l.references.edges, answer e.target.document = .ok m

/-! ### Tables -/

namespace Graph

variable {g h : Graph} {files : FileSystem} {p : FilePath} {l l' : Loaded}

theorem Holds.eq_of_id (hl : g.Holds l) (hl' : g.Holds l') (hid : l.id = l'.id) : l = l' := by
  obtain ⟨document, references⟩ := l
  obtain ⟨document', references'⟩ := l'
  have hdocument := hl'.document
  have hreferences := hl'.references
  rw [← hid] at hdocument hreferences
  exact congrArg₂ Loaded.mk (Except.ok.inj (Option.some.inj (hl.document.symm.trans hdocument)))
    (Option.some.inj (hl.references.symm.trans hreferences))

/-- A document whose table was there before was there with it. -/
theorem Consistent.holds_of_table (hg : g.Consistent) (hgh : g.Extends h) (hl : h.Holds l) {t : ReferenceTable}
    (ht : g.table? l.id = some t) : g.Holds l := by
  obtain ⟨d, hd, -⟩ := hg.tables _ _ ht
  have hdocument := (hgh.outcome? hd).symm.trans hl.document
  have hreferences := (hgh.tables _ _ ht).symm.trans hl.references
  refine ⟨?_, ?_⟩
  · rw [hd, Option.some.inj hdocument]
  · rw [ht, hreferences]

/-- A table that is new after a load is that of the document that is loaded. -/
theorem Consistent.exists_load_of_table (hg : g.Consistent) {id : DocumentId} {t : ReferenceTable}
    (ht : (g.load files p).2.table? id = some t) (hnew : g.table? id = none) :
    ∃ l, (g.load files p).1 = .ok l ∧ l.id = id := by
  have hasks := asks_loadParsed files g p
  have hnone : (g.loadParsed files p).2.table? id = none := by rw [hasks.table?, hnew]
  rw [load_eq] at ht ⊢
  cases hd : (g.loadParsed files p).1 with
  | error e =>
    simp only [hd, hnone] at ht
    cases ht
  | ok d =>
    cases hold : (g.loadParsed files p).2.table? d.id with
    | some t' =>
      simp only [hd, hold, hnone] at ht
      cases ht
    | none =>
      simp only [hd, hold, table?_setReferences] at ht ⊢
      refine ⟨_, rfl, ?_⟩
      by_contra hne
      have hbase := (hasks.grows hg).consistent.absolute
      rw [if_neg fun h => hne h.1.symm, (asks_resolveAll hbase files d d.value.references).table?, hnone] at ht
      cases ht

/-- **Loading makes the table of no document but the one that is loaded.** -/
theorem Consistent.holds_of_load (hg : g.Consistent) (hl : (g.load files p).2.Holds l) :
    g.Holds l ∨ (g.load files p).1 = .ok l := by
  have hload := hg.loading files p
  cases ht : g.table? l.id with
  | some t => exact .inl (hg.holds_of_table hload.toExtends hl ht)
  | none =>
    obtain ⟨l', hl', hid⟩ := hg.exists_load_of_table hl.references ht
    rw [hl', (hload.holds l' hl').eq_of_id hl hid]
    exact .inr rfl

end Graph

namespace View

open ApiLint.Graph (Refers)

/-- What there is to say of a view of `root` that was made in `g`, when `after` came of it. -/
structure Spans (files : FileSystem) (g : Graph) (root : Loaded) (v : View) (after : Graph) : Prop where
  root_eq : v.root = root
  /-- The documents are those that edges lead to from the root. -/
  reached : ∀ d, d ∈ v.documents ↔ ReflTransGen (Refers fun id => (g.load files id).1) root d
  nodup : (v.documents.map Loaded.id).Nodup
  /-- Every document has its table. -/
  held : ∀ d ∈ v.documents, after.Holds d
  /-- No other document got one. -/
  others : ∀ d, after.Holds d → g.Holds d ∨ d ∈ v.documents
  /-- Every edge leads to a node of a document of the view. -/
  target : ∀ d ∈ v.documents, ∀ e ∈ d.references.edges, ∃ d', v.document? e.target.document = some d' ∧
    (d'.document.valueAt? e.target.path).isSome
  /-- A walk lands where an edge leads to, unless that encloses some of the trail. -/
  lands : ∀ place crossed value e, v.valueAt? place = some value → v.edge? place = some e →
    (place :: crossed).any e.target.encloses = true ∨ ∃ w, v.landing? place crossed value = some (e.target, w)

section

variable {files : FileSystem} {g₀ g after : Graph} {root : Loaded} {v : View}

/-! ### What is gathered was reached -/

theorem Finds.refers {present : List DocumentId} {edges : List Edge} {found : List Loaded}
    (h : Finds files present edges g found after) (hg₀ : g₀.Consistent) (hg : Grows files g₀ g) :
    Grows files g₀ after ∧ (∀ l ∈ found, ∃ e ∈ edges, (g₀.load files e.target.document).1 = .ok l) ∧
      ∀ l, after.Holds l → g.Holds l ∨ l ∈ found := by
  induction h with
  | nil => exact ⟨hg, fun l hl => absurd hl List.not_mem_nil, fun l hl => .inl hl⟩
  | skip _ _ ih =>
    obtain ⟨hafter, hfound, hheld⟩ := ih hg
    refine ⟨hafter, fun l hl => ?_, hheld⟩
    obtain ⟨e, he, hload⟩ := hfound l hl
    exact ⟨e, List.mem_cons_of_mem _ he, hload⟩
  | @load e _ g _ _ _ _ hload _ ih =>
    have hsettled := Graph.settled_load hg₀ files e.target.document
    obtain ⟨hafter, hfound, hheld⟩ := ih (hg.trans (hsettled.grows g hg))
    refine ⟨hafter, fun l hl => ?_, fun l hl => ?_⟩
    · rcases List.mem_cons.mp hl with rfl | hl
      · exact ⟨e, List.mem_cons_self .., (hsettled.same g hg).symm.trans hload⟩
      · obtain ⟨e', he', hload'⟩ := hfound l hl
        exact ⟨e', List.mem_cons_of_mem _ he', hload'⟩
    · rcases hheld l hl with hl | hl
      · refine (hg.consistent.holds_of_load hl).imp_right fun hl => ?_
        rw [Except.ok.inj (hload.symm.trans hl)]
        exact List.mem_cons_self ..
      · exact .inr (List.mem_cons_of_mem _ hl)

/-- **Nothing is gathered but what edges lead to**, and nothing else gets a table. -/
theorem Gathering.reached {gathered pending result : List Loaded}
    (h : Gathering files gathered pending g result after) (hg₀ : g₀.Consistent) (hg : Grows files g₀ g)
    (hstart : ∀ l ∈ gathered ++ pending, ReflTransGen (Refers fun id => (g₀.load files id).1) root l) :
    (∀ l ∈ result, ReflTransGen (Refers fun id => (g₀.load files id).1) root l) ∧
      ∀ l, after.Holds l → g.Holds l ∨ ReflTransGen (Refers fun id => (g₀.load files id).1) root l := by
  induction h with
  | done => exact ⟨fun l hl => hstart l (List.mem_append_left _ hl), fun l hl => .inl hl⟩
  | skip _ _ ih =>
    refine ih hg fun l hl => hstart l ?_
    rw [List.mem_append] at hl ⊢
    exact hl.imp_right (List.mem_cons_of_mem _)
  | @take gathered pending found _ d _ _ _ _ hfinds _ ih =>
    obtain ⟨hnext, hfound, hheld⟩ := hfinds.refers hg₀ hg
    have hd := hstart d (List.mem_append_right _ (List.mem_cons_self ..))
    have hfound' : ∀ l ∈ found, ReflTransGen (Refers fun id => (g₀.load files id).1) root l :=
      fun l hl => hd.tail (hfound l hl)
    obtain ⟨hresult, hrest⟩ := ih hnext fun l hl => by
      simp only [List.mem_append, List.mem_singleton, List.mem_reverse] at hl
      rcases hl with (hl | rfl) | hl | hl
      · exact hstart l (List.mem_append_left _ hl)
      · exact hd
      · exact hfound' l hl
      · exact hstart l (List.mem_append_right _ (List.mem_cons_of_mem d hl))
    refine ⟨hresult, fun l hl => ?_⟩
    rcases hrest l hl with hl | hl
    · exact (hheld l hl).imp_right (hfound' l)
    · exact .inr hl

/-! ### What is reached is gathered -/

theorem Gathers.exists_target (h : Gathers g v.documents []) {d : Loaded} (hd : d ∈ v.documents) {e : Edge}
    (he : e ∈ d.references.edges) : ∃ d' ∈ v.documents, d'.id = e.target.document := by
  rcases h.closed d hd e he with hgathered | hpending
  · exact List.mem_map.mp hgathered
  · cases hpending

/-- A document to which an edge of the view leads is in the view. -/
theorem Gathers.mem_of_refers (h : Gathers after v.documents []) (hg : g.Consistent) (hafter : Grows files g after)
    {d m : Loaded} (hd : d ∈ v.documents) (hm : Refers (fun id => (g.load files id).1) d m) : m ∈ v.documents := by
  obtain ⟨e, he, hload⟩ := hm
  obtain ⟨d', hd', hid⟩ := h.exists_target hd he
  have hheld := hafter.consistent.load_of_holds (h.held d' (List.mem_append_left _ hd')) files
  have hsame := (Graph.settled_load hg files d'.id).same after hafter
  rw [hheld, hid] at hsame
  obtain rfl : d' = m := Except.ok.inj (hsame.trans hload)
  exact hd'

/-- A walk crosses every reference whose target encloses nothing of the trail. -/
theorem Complete.lands (hv : v.Complete) {place : Location} {value : Value} {e : Edge}
    (hvalue : v.valueAt? place = some value) (he : v.edge? place = some e) (crossed : List Location) :
    (place :: crossed).any e.target.encloses = true ∨ ∃ w, v.landing? place crossed value = some (e.target, w) := by
  obtain ⟨value', hvalue', href⟩ := hv.origin place e he
  obtain rfl : value = value' := Option.some.inj (hvalue.symm.trans hvalue')
  obtain ⟨w, hw⟩ := Option.isSome_iff_exists.mp (hv.target place e he)
  by_cases hencloses : (place :: crossed).any e.target.encloses = true
  · exact .inl hencloses
  · refine .inr ⟨w, ?_⟩
    obtain ⟨r, hr⟩ := Option.isSome_iff_exists.mp href
    rw [landing?, hr, he]
    simp only [if_neg hencloses, hw, Option.map_some]

theorem Gathers.exists_node_of_edge (h : Gathers g v.documents []) (hg : g.Consistent) {d : Loaded}
    (hd : d ∈ v.documents) {e : Edge} (he : e ∈ d.references.edges) :
    ∃ d', v.document? e.target.document = some d' ∧ (d'.document.valueAt? e.target.path).isSome := by
  obtain ⟨d', hd', hid⟩ := h.exists_target hd he
  obtain ⟨o, ho, hnode⟩ := hg.target (h.held d (List.mem_append_left _ hd)) he
  have hheld := (h.held d' (List.mem_append_left _ hd')).document
  rw [hid, ho] at hheld
  obtain rfl : o = d'.document := Except.ok.inj (Option.some.inj hheld)
  exact ⟨d', hid ▸ h.document?_eq hd', hnode⟩

/-- **A view holds what can be reached from its root.**  The root is the only document that got its table between `g`
and the graph in which the view is made. -/
theorem spans_ofLoaded (hg : g.Consistent) {next : Graph} (hnext : Grows files g next) (hroot : next.Holds root)
    (hothers : ∀ d, next.Holds d → g.Holds d ∨ d = root) :
    Spans files g root (ofLoaded files next root).1 (ofLoaded files next root).2 ∧
      Gathering files [] [root] next (ofLoaded files next root).1.documents (ofLoaded files next root).2 := by
  obtain ⟨⟨asked, hloads⟩, hgathers, hgathering⟩ := gathers_ofLoaded hnext.consistent files hroot
  have hafter := hnext.trans (hloads.grows hnext.consistent)
  have hcomplete := hgathers.complete hafter.consistent
  have hstart : ∀ l ∈ [] ++ [root], ReflTransGen (Refers fun id => (g.load files id).1) root l := by
    intro l hl
    obtain rfl := List.mem_singleton.mp hl
    exact .refl
  obtain ⟨hresult, hheld⟩ := hgathering.reached hg hnext hstart
  have hmem : ∀ d, ReflTransGen (Refers fun id => (g.load files id).1) root d →
      d ∈ (ofLoaded files next root).1.documents := by
    intro d hd
    induction hd with
    | refl => exact List.mem_cons_self ..
    | tail _ hrefers ih => exact hgathers.mem_of_refers hg hafter ih hrefers
  refine ⟨⟨rfl, fun d => ⟨hresult d, hmem d⟩, hgathers.nodup, ?held, ?others, ?target, ?lands⟩, hgathering⟩
  case held => exact fun d hd => hgathers.held d (List.mem_append_left _ hd)
  case others =>
    intro d hd
    rcases hheld d hd with hd | hd
    · refine (hothers d hd).imp_right ?_
      rintro rfl
      exact hmem _ .refl
    · exact .inr (hmem d hd)
  case target => exact fun d hd e he => hgathers.exists_node_of_edge hafter.consistent hd he
  case lands => exact fun place crossed value e hvalue he => hcomplete.lands hvalue he crossed

theorem exists_spans (hg : g.Consistent) {id : DocumentId} (hload : (g.load files id).1 = .ok root) :
    ∃ v after, ofDocument files g id = (.ok v, after) ∧ Spans files g root v after ∧
      Gathering files [] [root] (g.load files id).2 v.documents after := by
  have hloading := hg.loading files id
  obtain ⟨hspans, hgathering⟩ := spans_ofLoaded hg hloading.toGrows (hloading.holds root hload) fun d hd =>
    (hg.holds_of_load hd).imp_right fun hd => Except.ok.inj (hd.symm.trans hload)
  have hanswer : g.load files id = (.ok root, (g.load files id).2) := Prod.ext hload rfl
  refine ⟨_, _, ?_, hspans, hgathering⟩
  rw [ofDocument, hanswer]

end

end View

/-! ### Edges in a session -/

/-- Where a reference leads that was located from a document with a table, there is a document. -/
theorem Graph.Consistent.exists_load_of_located {g after : Graph} {files : FileSystem} {l : Loaded} {origin : Path}
    {reference : String} {target : Location} (hg : g.Consistent) (hl : g.Holds l)
    (h : g.locate files l.document origin reference = (.ok target, after)) :
    Grows files g after ∧ ∃ d, (after.load files target.document).1 = .ok d := by
  have hgrows := (Graph.asks_locate hg.absolute files l.document (origin, reference)).grows hg
  rw [h] at hgrows
  refine ⟨hgrows, ?_⟩
  rw [Graph.locate_eq] at h
  cases hnamed : g.target? l.document reference with
  | none =>
    rw [hnamed] at h
    obtain ⟨hfound, rfl⟩ := Prod.mk.inj h
    obtain ⟨d, ⟨-, rfl⟩ | ⟨id, hid⟩, hdocument, -⟩ := Graph.designated_ok hfound
    · obtain ⟨d, hd, -⟩ := hg.load_of_known files hl.document
      rw [hdocument]
      exact ⟨d, hd⟩
    · cases hid
  | some id =>
    rw [hnamed] at h
    obtain ⟨hfound, rfl⟩ := Prod.mk.inj h
    obtain ⟨d, ⟨hnone, -⟩ | ⟨id', hid⟩, hdocument, -⟩ := Graph.designated_ok hfound
    · cases hnone
    · obtain ⟨rfl, hanswer⟩ := Prod.mk.inj (Option.some.inj hid)
      have hknown := Graph.outcome?_loadParsed files g id
      rw [hanswer] at hknown
      obtain ⟨d', hd', -⟩ := hgrows.consistent.load_of_known files (hgrows.consistent.id_eq hknown ▸ hknown)
      rw [hdocument]
      exact ⟨d', hd'⟩

namespace Session

/-- The edges of all documents that have a table lead somewhere, now and later. -/
structure EdgesUsable (s : Session) : Prop where
  /-- The document that an edge leads to loads, whatever becomes of the files, and it has the node. -/
  loads : ∀ l, s.graph.Holds l → ∀ e ∈ l.references.edges, ∀ ops files,
    ∃ next, ((s.run ops).graph.load files e.target.document).1 = .ok next ∧ next.id = e.target.document ∧
      (next.document.valueAt? e.target.path).isSome
  /-- A view holds what can be reached, and none of it failed to load; the documents keep their tables. -/
  views : ∀ id root, (s.graph.load s.files id).1 = .ok root →
    ∃ v after, View.ofDocument s.files s.graph id = (.ok v, after) ∧ View.Spans s.files s.graph root v after ∧
      View.Gathering s.files [] [root] (s.graph.load s.files id).2 v.documents after ∧
      ∀ ops, ∀ d ∈ v.documents, ((s.step (.view id)).run ops).graph.Holds d
  /-- Following a chain loads every document that it comes to. -/
  follows : ∀ id d p, (s.graph.load s.files id).1 = .ok d → ∃ r, (s.graph.follow s.files id p).1 = .ok r ∧
    Chain (fun id => (s.graph.load s.files id).1) [⟨d.id, p⟩] d p r
  /-- So does following on from the node where a reference was located, in whichever view. -/
  located : ∀ l, s.graph.Holds l → ∀ origin reference target after,
    s.graph.locate s.files l.document origin reference = (.ok target, after) →
    ∃ d r, (after.load s.files target.document).1 = .ok d ∧
      (∀ v : View, (v.followTarget s.files after target).1 = r) ∧
      Chain (fun id => (s.graph.load s.files id).1) [⟨d.id, target.path⟩] d target.path r

/-- **Edges stay usable**, whatever was asked for and whatever becomes of the files. -/
theorem edgesUsable {base : FilePath} (hbase : base.isAbsolute = true) {s : Session} (hs : s.From base) :
    s.EdgesUsable := by
  have hg := hs.consistent hbase
  refine ⟨fun l hl e he ops files => ?loads, fun id root hroot => ?views, fun id d p hd => ?follows,
    fun l hl origin reference target after h => ?located⟩
  case loads =>
    obtain ⟨_, hran⟩ := ran hg ops
    have hheld := hl.extend hran.toExtends
    have hyields : (s.run ops).graph.Yields files l := by
      rw [Graph.Yields, hran.consistent.load_of_holds hheld files]
    exact hyields.target hran.consistent he
  case views =>
    obtain ⟨v, after, hview, hspans, hgathering⟩ := View.exists_spans hg hroot
    refine ⟨v, after, hview, hspans, hgathering, fun ops d hd => ?_⟩
    obtain ⟨_, hstep⟩ := stepped hg (.view id)
    obtain ⟨_, hran⟩ := ran hstep.consistent ops
    have hafter : (s.step (.view id)).graph = after := congrArg Prod.snd hview
    exact (hafter ▸ hspans.held d hd).extend hran.toExtends
  case follows => exact Graph.chain_follow hg (.refl s.files hg) hd p
  case located =>
    obtain ⟨hafter, d, hd⟩ := hg.exists_load_of_located hl h
    have hload := (hafter.consistent.loading s.files target.document).toGrows
    have hsame := (Graph.settled_load hg s.files target.document).same after hafter
    have hsource := Graph.yields_of_load hg (hsame.symm.trans hd)
    refine ⟨d, ((after.load s.files target.document).2.followLoaded s.files d target.path).1, hd, fun v => ?_,
      (Graph.chain_followLoaded hg (hafter.trans hload) hsource target.path).1⟩
    have hanswer : after.load s.files target.document = (.ok d, (after.load s.files target.document).2) :=
      Prod.ext hd rfl
    rw [View.followTarget, hanswer]

/-- A file is replaced after it was read.  The node that a reference designates stands in it no more, which only a new
graph notices. -/
theorem edgesUsable_of_replaced : ∃ s : Session, (⟨"/"⟩ : FilePath).isAbsolute = true ∧ s.From ⟨"/"⟩ ∧
    (((Graph.empty ⟨"/"⟩).load s.files ⟨"/a.json"⟩).1.toOption.map fun l =>
      (l.references.edges.length, l.references.unresolved.length)) = some (1, 1) ∧
    ((s.graph.load s.files ⟨"/a.json"⟩).1.toOption.map fun l =>
      (l.references.edges.length, l.references.unresolved.length)) = some (2, 0) ∧
    s.EdgesUsable := by
  let files : FileSystem := ⟨[
    (⟨"/a.json"⟩, "\x7b\"x\":\x7b\"$ref\":\"b.json#/y\"\x7d,\"z\":\x7b\"$ref\":\"#/x\"\x7d\x7d"),
    (⟨"/b.json"⟩, "\x7b\"y\":\x7b\"$ref\":\"c.json#/w\"\x7d\x7d"),
    (⟨"/c.json"⟩, "\x7b\"w\":\x7b\"$ref\":\"a.json#/z\"\x7d\x7d")], fun _ => "no such file"⟩
  let ops : List Operation := [.load ⟨"a.json"⟩, .insert ⟨"/b.json"⟩ "0"]
  have hbase : (⟨"/"⟩ : FilePath).isAbsolute = true := by decide +kernel
  have hfrom : (run ⟨files, .empty ⟨"/"⟩⟩ ops).From ⟨"/"⟩ := ⟨files, ops, rfl⟩
  exact ⟨run ⟨files, .empty ⟨"/"⟩⟩ ops, hbase, hfrom, by decide +kernel, by decide +kernel, edgesUsable hbase hfrom⟩

end Session

end ApiLint
