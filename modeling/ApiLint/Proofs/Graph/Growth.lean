import ApiLint.Graph
import ApiLint.Proofs.CanonicalPath
import Mathlib.Data.List.Basic
import Mathlib.Data.List.Infix
import Mathlib.Data.List.Nodup

/-!
# Graphs grow

A graph changes in two ways only: a path is asked for (`Graph.loadParsed`), which adds an entry if there is
none, and a document gets its table of references.  `Graph.Extends` says that one graph came of another so:
what was known is still known, and new entries stand behind the old ones.

`Graph.Asks` writes down which paths were asked for, in order.  All that resolving references does to a
graph is asking for the documents they name (`asks_resolveAll`), and the table it makes is then what the
known documents say (`Graph.tableOf`, `resolveAll_eq_tableOf`).  Nothing that a graph learns later changes
that table (`Extends.tableOf_eq`), so it does not matter when it was made.
-/

namespace ApiLint

/-! ### Look-up by a key -/

section

variable {α κ : Type} [DecidableEq κ] {f : α → κ} {k : κ} {xs : List α} {x : α}

theorem key_of_find? (h : xs.find? (fun y => f y = k) = some x) : f x = k := by
  have hx := List.find?_some h
  exact of_decide_eq_true hx

theorem find?_key (hnodup : (xs.map f).Nodup) (hx : x ∈ xs) : xs.find? (fun y => f y = f x) = some x := by
  have hsome : (xs.find? fun y => f y = f x).isSome := List.find?_isSome.mpr ⟨x, hx, decide_eq_true rfl⟩
  obtain ⟨y, hy⟩ := Option.isSome_iff_exists.mp hsome
  rw [hy, List.inj_on_of_nodup_map hnodup (List.mem_of_find?_eq_some hy) hx (key_of_find? hy)]

end

namespace Graph

/-! ### What a graph knows -/

def ids (g : Graph) : List DocumentId :=
  g.entries.map Entry.id

def outcomes (g : Graph) : List (DocumentId × Except LoadError Document) :=
  g.entries.map fun e => (e.id, e.outcome)

/-- What came of the first request for `id`. -/
def outcome? (g : Graph) (id : DocumentId) : Option (Except LoadError Document) :=
  (g.entry? id).map Entry.outcome

def table? (g : Graph) (id : DocumentId) : Option ReferenceTable :=
  (g.entry? id).bind Entry.references

section

variable {g h k : Graph} {id : DocumentId} {o : Except LoadError Document} {files : FileSystem} {p : FilePath}

theorem outcome?_eq (g : Graph) (id : DocumentId) :
    g.outcome? id = (g.outcomes.find? fun o => o.1 = id).map Prod.snd := by
  rw [outcomes, List.find?_map, Option.map_map]
  rfl

theorem id_of_entry? {e : Entry} (he : g.entry? id = some e) : e.id = id :=
  key_of_find? he

theorem mem_ids_iff : id ∈ g.ids ↔ ∃ o, g.outcome? id = some o := by
  constructor
  · intro hid
    obtain ⟨e, he, heq⟩ := List.mem_map.mp hid
    have hsome : (g.entry? id).isSome := List.find?_isSome.mpr ⟨e, he, decide_eq_true heq⟩
    obtain ⟨e', he'⟩ := Option.isSome_iff_exists.mp hsome
    exact ⟨e'.outcome, by rw [outcome?, he', Option.map_some]⟩
  · rintro ⟨o, ho⟩
    obtain ⟨e, he, -⟩ := Option.map_eq_some_iff.mp ho
    exact List.mem_map.mpr ⟨e, List.mem_of_find?_eq_some he, id_of_entry? he⟩

theorem outcome?_eq_none_iff : g.outcome? id = none ↔ id ∉ g.ids := by
  rw [mem_ids_iff, Option.eq_none_iff_forall_ne_some, not_exists]

theorem documents_eq (g : Graph) : g.documents = g.outcomes.filterMap fun o => o.2.toOption := by
  rw [outcomes, List.filterMap_map]
  rfl

theorem mem_documents_of_outcome? {d : Document} (h : g.outcome? id = some (.ok d)) : d ∈ g.documents := by
  rw [outcome?_eq] at h
  obtain ⟨o, ho, heq⟩ := Option.map_eq_some_iff.mp h
  rw [documents_eq]
  exact List.mem_filterMap.mpr ⟨o, List.mem_of_find?_eq_some ho, by rw [heq]; rfl⟩

theorem get_of_outcome? (ho : g.outcome? (g.canonical p) = some o) : g.get p = o := by
  obtain ⟨e, he, rfl⟩ := Option.map_eq_some_iff.mp ho
  rw [get]
  simp only [he]

theorem get_of_not_mem (h : g.canonical p ∉ g.ids) : g.get p = .error (.notLoaded (g.canonical p)) := by
  have hnone := Option.map_eq_none_iff.mp (outcome?_eq_none_iff.mpr h)
  rw [get]
  simp only [hnone]

/-! ### Asking for a path -/

/-- The graph with an entry for `id` behind all others. -/
def add (g : Graph) (id : DocumentId) (o : Except LoadError Document) : Graph :=
  { g with entries := g.entries ++ [⟨id, o, none⟩], reads := g.reads + 1 }

theorem loadParsed_of_some (ho : g.outcome? (g.canonical p) = some o) :
    g.loadParsed files p = (o, g) := by
  obtain ⟨e, he, rfl⟩ := Option.map_eq_some_iff.mp ho
  rw [loadParsed]
  simp only [he]

theorem loadParsed_of_none (ho : g.outcome? (g.canonical p) = none) :
    g.loadParsed files p
      = (fetch files (g.canonical p), g.add (g.canonical p) (fetch files (g.canonical p))) := by
  have he := Option.map_eq_none_iff.mp ho
  rw [loadParsed]
  simp only [he]
  rfl

theorem ids_add (g : Graph) (id : DocumentId) (o : Except LoadError Document) :
    (g.add id o).ids = g.ids ++ [id] :=
  List.map_append

theorem outcomes_add (g : Graph) (id : DocumentId) (o : Except LoadError Document) :
    (g.add id o).outcomes = g.outcomes ++ [(id, o)] :=
  List.map_append

theorem outcome?_add (g : Graph) (id i : DocumentId) (o : Except LoadError Document) :
    (g.add id o).outcome? i = (g.outcome? i).or (if id = i then some o else none) := by
  rw [outcome?_eq, outcomes_add, List.find?_append, Option.map_or, ← outcome?_eq]
  by_cases hi : id = i
  · simp [hi]
  · simp [hi]

/-- A new entry has no table yet. -/
theorem table?_add (g : Graph) (id i : DocumentId) (o : Except LoadError Document) :
    (g.add id o).table? i = g.table? i := by
  rw [table?, entry?, add, List.find?_append, table?, entry?]
  cases g.entries.find? fun e => e.id = i with
  | some e => rfl
  | none =>
    by_cases hi : id = i
    · simp [hi]
    · simp [hi]

/-! ### Recording a table -/

theorem outcomes_setReferences (g : Graph) (id : DocumentId) (t : ReferenceTable) :
    (g.setReferences id t).outcomes = g.outcomes := by
  rw [outcomes, setReferences, List.map_map]
  refine List.map_congr_left fun e _ => ?_
  rw [Function.comp_apply]
  split <;> rfl

theorem ids_eq_map_outcomes (g : Graph) : g.ids = g.outcomes.map Prod.fst := by
  rw [outcomes, List.map_map]
  rfl

theorem outcome?_setReferences (g : Graph) (id i : DocumentId) (t : ReferenceTable) :
    (g.setReferences id t).outcome? i = g.outcome? i := by
  rw [outcome?_eq, outcome?_eq, outcomes_setReferences]

theorem ids_setReferences (g : Graph) (id : DocumentId) (t : ReferenceTable) :
    (g.setReferences id t).ids = g.ids := by
  rw [ids_eq_map_outcomes, ids_eq_map_outcomes, outcomes_setReferences]

theorem table?_setReferences (g : Graph) (id i : DocumentId) (t : ReferenceTable) :
    (g.setReferences id t).table? i = if i = id ∧ i ∈ g.ids then some t else g.table? i := by
  have hentry : entry? (g.setReferences id t) i
      = (g.entry? i).map fun e => if e.id = id then { e with references := some t } else e := by
    rw [setReferences, entry?, List.find?_map, entry?]
    congr 2
    funext e
    rw [Function.comp_apply]
    split <;> rfl
  rw [table?, hentry, table?]
  cases he : g.entry? i with
  | none =>
    have hi : i ∉ g.ids := outcome?_eq_none_iff.mp (by rw [outcome?, he, Option.map_none])
    rw [if_neg fun h => hi h.2]
    rfl
  | some e =>
    have hei : e.id = i := id_of_entry? he
    have hi : i ∈ g.ids := mem_ids_iff.mpr ⟨e.outcome, by rw [outcome?, he, Option.map_some]⟩
    rw [Option.map_some, Option.bind_some, hei]
    by_cases hid : i = id
    · rw [if_pos hid, if_pos ⟨hid, hi⟩]
    · rw [if_neg hid, if_neg fun h => hid h.1, Option.bind_some]

/-! ### Extensions -/

/-- What `g` knows is known to `h`, and what is new to `h` stands behind it. -/
structure Extends (g h : Graph) : Prop where
  base : h.base = g.base
  outcomes : g.outcomes <+: h.outcomes
  tables : ∀ id t, g.table? id = some t → h.table? id = some t

namespace Extends

theorem refl (g : Graph) : g.Extends g :=
  ⟨rfl, List.prefix_refl _, fun _ _ ht => ht⟩

theorem trans (hgh : g.Extends h) (hhk : h.Extends k) : g.Extends k :=
  ⟨hhk.base.trans hgh.base, hgh.outcomes.trans hhk.outcomes, fun id t ht =>
    hhk.tables id t (hgh.tables id t ht)⟩

theorem canonical (hgh : g.Extends h) (p : FilePath) : h.canonical p = g.canonical p := by
  rw [Graph.canonical, Graph.canonical, hgh.base]

theorem outcome? (hgh : g.Extends h) (ho : g.outcome? id = some o) : h.outcome? id = some o := by
  rw [outcome?_eq] at ho ⊢
  obtain ⟨e, he, rfl⟩ := Option.map_eq_some_iff.mp ho
  rw [hgh.outcomes.find?_eq_some he, Option.map_some]

theorem ids (hgh : g.Extends h) : g.ids <+: h.ids := by
  rw [ids_eq_map_outcomes, ids_eq_map_outcomes]
  exact hgh.outcomes.map Prod.fst

theorem documents (hgh : g.Extends h) : g.documents <+: h.documents := by
  rw [documents_eq, documents_eq]
  exact hgh.outcomes.filterMap _

theorem add (g : Graph) (id : DocumentId) (o : Except LoadError Document) : g.Extends (g.add id o) := by
  refine ⟨rfl, ?_, fun i t ht => ?_⟩
  · rw [outcomes_add]
    exact List.prefix_append _ _
  · rw [table?_add, ht]

theorem setReferences (hnone : g.table? id = none) (t : ReferenceTable) :
    g.Extends (g.setReferences id t) := by
  refine ⟨rfl, ?_, fun i u hu => ?_⟩
  · rw [outcomes_setReferences]
  · rw [table?_setReferences, if_neg, hu]
    rintro ⟨rfl, -⟩
    rw [hnone] at hu
    cases hu

end Extends

/-! ### Paths asked for one after another -/

/-- `h` came of `g` by asking for the paths with these canonical forms, one after another. -/
inductive Asks (files : FileSystem) : Graph → List DocumentId → Graph → Prop
  | nil (g : Graph) : Asks files g [] g
  | cons {g h : Graph} {asked : List DocumentId} (p : FilePath) :
    Asks files (g.loadParsed files p).2 asked h → Asks files g (g.canonical p :: asked) h

def enlist (ids : List DocumentId) (id : DocumentId) : List DocumentId :=
  if id ∈ ids then ids else ids ++ [id]

theorem mem_foldl_enlist {asked ids : List DocumentId} {id : DocumentId} :
    id ∈ asked.foldl enlist ids ↔ id ∈ ids ∨ id ∈ asked := by
  induction asked generalizing ids with
  | nil => simp
  | cons i asked ih =>
    rw [List.foldl_cons, ih, enlist, List.mem_cons]
    by_cases hi : i ∈ ids
    · rw [if_pos hi]
      constructor
      · exact Or.imp_right Or.inr
      · rintro (h | rfl | h)
        · exact Or.inl h
        · exact Or.inl hi
        · exact Or.inr h
    · rw [if_neg hi, List.mem_append, List.mem_singleton, or_assoc]

namespace Asks

variable {asked asked' : List DocumentId}

theorem append (hgh : Asks files g asked h) (hhk : Asks files h asked' k) :
    Asks files g (asked ++ asked') k := by
  induction hgh with
  | nil => exact hhk
  | cons p _ ih => exact .cons p (ih hhk)

theorem toExtends (hgh : Asks files g asked h) : g.Extends h := by
  induction hgh with
  | nil g => exact .refl g
  | @cons g h asked p _ ih =>
    cases ho : g.outcome? (g.canonical p) with
    | some o =>
      rw [loadParsed_of_some ho] at ih
      exact ih
    | none =>
      rw [loadParsed_of_none ho] at ih
      exact (Extends.add g _ _).trans ih

theorem table? (hgh : Asks files g asked h) (id : DocumentId) : h.table? id = g.table? id := by
  induction hgh with
  | nil => rfl
  | @cons g h asked p _ ih =>
    cases ho : g.outcome? (g.canonical p) with
    | some o => rw [ih, loadParsed_of_some ho]
    | none => rw [ih, loadParsed_of_none ho, table?_add]

/-- The paths asked for are known afterwards, the new ones in the order in which they were asked for. -/
theorem ids_eq (hgh : Asks files g asked h) : h.ids = asked.foldl enlist g.ids := by
  induction hgh with
  | nil => rfl
  | @cons g h asked p _ ih =>
    rw [ih, List.foldl_cons, enlist]
    cases ho : g.outcome? (g.canonical p) with
    | some o => rw [loadParsed_of_some ho, if_pos (mem_ids_iff.mpr ⟨o, ho⟩)]
    | none => rw [loadParsed_of_none ho, if_neg (outcome?_eq_none_iff.mp ho), ids_add]

/-- What is new was fetched from the files. -/
theorem outcome?_eq_fetch (hgh : Asks files g asked h) (hnew : id ∉ g.ids) (ho : h.outcome? id = some o) :
    o = fetch files id := by
  induction hgh with
  | nil => exact absurd (mem_ids_iff.mpr ⟨o, ho⟩) hnew
  | @cons g h asked p hrest ih =>
    cases hp : g.outcome? (g.canonical p) with
    | some o' =>
      rw [loadParsed_of_some hp] at ih
      exact ih hnew ho
    | none =>
      rw [loadParsed_of_none hp] at ih hrest
      by_cases hid : id = g.canonical p
      · have hadded : (g.add (g.canonical p) (fetch files (g.canonical p))).outcome? id
            = some (fetch files id) := by
          rw [outcome?_add, if_pos hid.symm, hid, hp, Option.none_or]
        exact Option.some.inj (ho.symm.trans (hrest.toExtends.outcome? hadded))
      · refine ih ?_ ho
        rw [ids_add, List.mem_append, List.mem_singleton, not_or]
        exact ⟨hnew, hid⟩

end Asks

theorem asks_loadParsed (files : FileSystem) (g : Graph) (p : FilePath) :
    Asks files g [g.canonical p] (g.loadParsed files p).2 :=
  .cons p (.nil _)

/-- What is answered is known afterwards. -/
theorem outcome?_loadParsed (files : FileSystem) (g : Graph) (p : FilePath) :
    (g.loadParsed files p).2.outcome? (g.canonical p) = some (g.loadParsed files p).1 := by
  cases ho : g.outcome? (g.canonical p) with
  | some o => rw [loadParsed_of_some ho, ho]
  | none => rw [loadParsed_of_none ho, outcome?_add, ho, if_pos rfl, Option.none_or]

/-! ### References -/

def target? (g : Graph) (d : Document) (reference : String) : Option DocumentId :=
  (Reference.ofText? reference).bind fun r =>
    if r.file.isEmpty then none else some (g.relative d.id ⟨r.file⟩)

def targets (g : Graph) (d : Document) : List DocumentId :=
  d.value.references.filterMap fun s => g.target? d s.2

/-- The node of `target` to which the pointer of a reference written in `source` leads. -/
def pointed (source : Document) (origin : Path) (reference : String) (tokens : List String)
    (target : Document) : Except ReferenceError Location :=
  match target.value.follow? tokens with
  | none => .error ⟨source.id, origin, reference, .missingTarget⟩
  | some p => .ok ⟨target.id, p⟩

/-- What a reference written in `source` designates, when `named` came of the request for the document that
it names. -/
def designated (source : Document) (origin : Path) (reference : String)
    (named : Option (DocumentId × Except LoadError Document)) : Except ReferenceError Location :=
  match Reference.ofText? reference with
  | none => .error ⟨source.id, origin, reference, .malformed⟩
  | some r =>
    match named with
    | none => pointed source origin reference r.tokens source
    | some (id, .error e) => .error ⟨source.id, origin, reference, .documentUnavailable id e.message⟩
    | some (_, .ok target) => pointed source origin reference r.tokens target

/-- What a reference written in `source` designates, as far as is known. -/
def known (g : Graph) (source : Document) (site : Path × String) : Except ReferenceError Location :=
  designated source site.1 site.2
    ((g.target? source site.2).bind fun id => (g.outcome? id).map fun o => (id, o))

/-- Locating asks for the document that the reference names, if it names one. -/
theorem locate_eq (files : FileSystem) (g : Graph) (source : Document) (origin : Path) (reference : String) :
    g.locate files source origin reference =
      match g.target? source reference with
      | none => (designated source origin reference none, g)
      | some id =>
        (designated source origin reference (some (id, (g.loadParsed files id).1)),
          (g.loadParsed files id).2) := by
  unfold locate target? designated
  cases Reference.ofText? reference with
  | none => rfl
  | some r =>
    by_cases hr : r.file.isEmpty = true
    · simp only [Option.bind_some, hr, if_true]
      rfl
    · simp only [Option.bind_some, hr, if_false, Bool.false_eq_true]
      cases (g.loadParsed files (g.relative source.id ⟨r.file⟩)) with
      | mk outcome next => cases outcome <;> rfl

end

end Graph

/-- The table of the references `sites`, when `found` says what they designate. -/
def ReferenceTable.ofSites (found : Path × String → Except ReferenceError Location)
    (sites : List (Path × String)) : ReferenceTable where
  edges := sites.filterMap fun s =>
    match found s with
    | .ok target => some ⟨s.1, s.2, target⟩
    | .error _ => none
  unresolved := sites.filterMap fun s =>
    match found s with
    | .ok _ => none
    | .error e => some e

namespace ReferenceTable

variable {found found' : Path × String → Except ReferenceError Location} {sites : List (Path × String)}

theorem ofSites_congr (h : ∀ s ∈ sites, found s = found' s) :
    ofSites found sites = ofSites found' sites := by
  induction sites with
  | nil => rfl
  | cons s sites ih =>
    have htail := ih fun t ht => h t (List.mem_cons_of_mem s ht)
    rw [ofSites, ofSites, mk.injEq] at htail
    rw [ofSites, ofSites, List.filterMap_cons, List.filterMap_cons, List.filterMap_cons,
      List.filterMap_cons, h s (List.mem_cons_self ..), htail.1, htail.2]

theorem ofSites_cons (found : Path × String → Except ReferenceError Location) (s : Path × String)
    (sites : List (Path × String)) :
    ofSites found (s :: sites) =
      match found s with
      | .ok target => ⟨⟨s.1, s.2, target⟩ :: (ofSites found sites).edges, (ofSites found sites).unresolved⟩
      | .error e => ⟨(ofSites found sites).edges, e :: (ofSites found sites).unresolved⟩ := by
  rw [ofSites, List.filterMap_cons, List.filterMap_cons]
  cases found s <;> rfl

theorem exists_site_of_error {e : ReferenceError} (h : e ∈ (ofSites found sites).unresolved) :
    ∃ s ∈ sites, found s = .error e := by
  obtain ⟨s, hs, hfound⟩ := List.mem_filterMap.mp h
  refine ⟨s, hs, ?_⟩
  cases hf : found s with
  | error e' =>
    rw [hf] at hfound
    cases hfound
    rfl
  | ok target =>
    rw [hf] at hfound
    cases hfound

theorem exists_site_of_edge {e : Edge} (h : e ∈ (ofSites found sites).edges) :
    ∃ s ∈ sites, found s = .ok e.target := by
  obtain ⟨s, hs, hfound⟩ := List.mem_filterMap.mp h
  refine ⟨s, hs, ?_⟩
  cases hf : found s with
  | error e =>
    rw [hf] at hfound
    cases hfound
  | ok target =>
    rw [hf] at hfound
    cases hfound
    rfl

end ReferenceTable

namespace Graph

def tableOf (g : Graph) (d : Document) : ReferenceTable :=
  .ofSites (g.known d) d.value.references

section

variable {g h k : Graph} {d : Document} {files : FileSystem} {sites : List (Path × String)}

theorem Extends.target? (hgh : g.Extends h) (d : Document) (reference : String) :
    h.target? d reference = g.target? d reference := by
  have hrelative : ∀ file, h.relative d.id file = g.relative d.id file := by
    intro file
    rw [relative, relative, hgh.canonical]
  simp only [Graph.target?, hrelative]

theorem Extends.targets (hgh : g.Extends h) (d : Document) : h.targets d = g.targets d := by
  simp only [Graph.targets, hgh.target?]

/-- What a reference designates does not change once the document that it names is known. -/
theorem Extends.known_eq (hgh : g.Extends h) {s : Path × String}
    (hs : ∀ id, g.target? d s.2 = some id → id ∈ g.ids) : h.known d s = g.known d s := by
  rw [known, known, hgh.target?]
  cases hid : g.target? d s.2 with
  | none => rfl
  | some id =>
    obtain ⟨o, ho⟩ := mem_ids_iff.mp (hs id hid)
    rw [Option.bind_some, Option.bind_some, ho, hgh.outcome? ho]

theorem Extends.tableOf_eq (hgh : g.Extends h) (hd : ∀ id ∈ g.targets d, id ∈ g.ids) :
    h.tableOf d = g.tableOf d := by
  rw [tableOf, tableOf]
  refine ReferenceTable.ofSites_congr fun s hs => hgh.known_eq fun id hid => hd id ?_
  exact List.mem_filterMap.mpr ⟨s, hs, hid⟩

theorem resolveAll_snd_cons (files : FileSystem) (d : Document) (s : Path × String)
    (sites : List (Path × String)) (g : Graph) :
    (resolveAll files d (s :: sites) g).2 = (resolveAll files d sites (g.locate files d s.1 s.2).2).2 := by
  rw [resolveAll]
  cases g.locate files d s.1 s.2 with
  | mk found next => cases found <;> rfl

theorem resolveAll_fst_cons (files : FileSystem) (d : Document) (s : Path × String)
    (sites : List (Path × String)) (g : Graph) :
    (resolveAll files d (s :: sites) g).1 =
      let table := (resolveAll files d sites (g.locate files d s.1 s.2).2).1
      match (g.locate files d s.1 s.2).1 with
      | .ok target => ⟨⟨s.1, s.2, target⟩ :: table.edges, table.unresolved⟩
      | .error e => ⟨table.edges, e :: table.unresolved⟩ := by
  rw [resolveAll]
  cases g.locate files d s.1 s.2 with
  | mk found next => cases found <;> rfl

variable (hbase : g.base.isAbsolute = true)
include hbase

/-- The id that a reference names is canonical. -/
theorem canonical_of_target? {reference : String} {id : DocumentId}
    (h : g.target? d reference = some id) : g.canonical id = id := by
  obtain ⟨r, -, hr⟩ := Option.bind_eq_some_iff.mp h
  split at hr
  · cases hr
  · have hid : g.relative d.id ⟨r.file⟩ = id := Option.some.inj hr
    rw [← hid]
    exact FilePath.canonical_canonical hbase _

theorem asks_locate (files : FileSystem) (d : Document) (s : Path × String) :
    Asks files g (g.target? d s.2).toList (g.locate files d s.1 s.2).2 := by
  rw [locate_eq]
  cases hid : g.target? d s.2 with
  | none => exact .nil g
  | some id =>
    have hask := asks_loadParsed files g id
    rw [canonical_of_target? hbase hid] at hask
    exact hask

/-- Locating answers what is known afterwards. -/
theorem locate_eq_known (d : Document) (s : Path × String)
    (hk : (g.locate files d s.1 s.2).2.Extends k) : (g.locate files d s.1 s.2).1 = k.known d s := by
  have hgk := (asks_locate hbase files d s).toExtends.trans hk
  rw [known, hgk.target?]
  rw [locate_eq] at hk ⊢
  cases hid : g.target? d s.2 with
  | none => rfl
  | some id =>
    simp only [hid] at hk
    have hknown := outcome?_loadParsed files g id
    rw [canonical_of_target? hbase hid] at hknown
    rw [Option.bind_some, hk.outcome? hknown]
    rfl

/-- **Resolving references asks for the documents that they name, in order.** -/
theorem asks_resolveAll (files : FileSystem) (d : Document) (sites : List (Path × String)) :
    Asks files g (sites.filterMap fun s : Path × String => g.target? d s.2)
      (resolveAll files d sites g).2 := by
  induction sites generalizing g with
  | nil => exact .nil g
  | cons s sites ih =>
    have hs := asks_locate hbase files d s
    have hsites := ih (g := (g.locate files d s.1 s.2).2) (hs.toExtends.base ▸ hbase)
    simp only [hs.toExtends.target?] at hsites
    have hall := hs.append hsites
    rw [resolveAll_snd_cons]
    rw [List.filterMap_cons]
    cases hid : g.target? d s.2 with
    | none => rwa [hid] at hall
    | some id => rwa [hid] at hall

/-- The table that is made says what is known afterwards. -/
theorem resolveAll_fst_eq (d : Document) (hk : (resolveAll files d sites g).2.Extends k) :
    (resolveAll files d sites g).1 = .ofSites (k.known d) sites := by
  induction sites generalizing g with
  | nil => rfl
  | cons s sites ih =>
    have hs := asks_locate hbase files d s
    have hbase' : (g.locate files d s.1 s.2).2.base.isAbsolute = true := hs.toExtends.base ▸ hbase
    rw [resolveAll_snd_cons] at hk
    have hsite := locate_eq_known hbase d s ((asks_resolveAll hbase' files d sites).toExtends.trans hk)
    rw [resolveAll_fst_cons, ih hbase' hk, hsite, ReferenceTable.ofSites_cons]

end

end Graph

end ApiLint
