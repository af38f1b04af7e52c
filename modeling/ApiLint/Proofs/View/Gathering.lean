import ApiLint.Proofs.Graph.Consistency
import ApiLint.View
import Mathlib.Data.List.Nodup
import Mathlib.Data.List.Perm.Subperm

/-!
# Views are complete

`View.Gathering` is the gathering of documents in its steps: it has no step in which a document fails to load, and none
in which room is lacking.

Gathering keeps an invariant (`View.Gathers`): what an edge of a gathered document leads to is gathered too or
pending.  It stops when nothing is pending, and not before, for there are no more documents to gather than the
graph had entries and there are files (`Graph.Grows.length_le`).  So every edge of a view leads to a document
of the view (`View.gathers_ofDocument`).
-/

namespace ApiLint

open ApiLint.Graph (Grows Loads)

variable {g g₀ h : Graph} {files : FileSystem}

theorem Graph.mem_files_of_fetch {id : DocumentId} {d : Document} (h : Graph.fetch files id = .ok d) :
    id.components ∈ files.files.map fun f => f.1.components := by
  rw [Graph.fetch, FileSystem.read] at h
  cases hfile : files.files.find? fun f => f.1.components = id.components with
  | none =>
    rw [hfile] at h
    cases h
  | some f =>
    have hcomponents := key_of_find? hfile
    exact List.mem_map.mpr ⟨f, List.mem_of_find?_eq_some hfile, hcomponents⟩

/-- Documents that are there were there before or lie in different files. -/
theorem Graph.Grows.length_le (hgh : Grows files g h) {ids : List DocumentId} (hnodup : ids.Nodup)
    (hids : ∀ id ∈ ids, ∃ d, h.outcome? id = some (.ok d)) :
    ids.length ≤ files.files.length + g.entries.length := by
  have hcanonical : ∀ id ∈ ids, h.canonical id = id := by
    intro id hid
    obtain ⟨d, hd⟩ := hids id hid
    exact hgh.consistent.canonical id (Graph.mem_ids_iff.mpr ⟨_, hd⟩)
  -- canonical ids differ where their components do, and by these files are found
  have hcomponents : (ids.map FilePath.components).Nodup := by
    refine hnodup.map_on fun i hi j hj hij => ?_
    exact FilePath.eq_of_components_eq hgh.consistent.absolute (hcanonical i hi) (hcanonical j hj) hij
  have hsubset : ids.map FilePath.components ⊆
      (files.files.map fun f => f.1.components) ++ g.entries.map fun e => e.id.components := by
    intro c hc
    obtain ⟨id, hid, rfl⟩ := List.mem_map.mp hc
    rw [List.mem_append]
    by_cases hold : id ∈ g.ids
    · obtain ⟨e, he, rfl⟩ := List.mem_map.mp hold
      exact .inr (List.mem_map.mpr ⟨e, he, rfl⟩)
    · obtain ⟨d, hd⟩ := hids id hid
      exact .inl (Graph.mem_files_of_fetch (hgh.fetched id _ hold hd).symm)
  have hle := (List.subperm_of_subset hcomponents hsubset).length_le
  rwa [List.length_map, List.length_append, List.length_map, List.length_map] at hle

namespace View

/-- The documents gathered so far and those pending are all loaded, no document is gathered twice, and every
edge of a gathered document leads to one of them. -/
structure Gathers (g : Graph) (gathered pending : List Loaded) : Prop where
  held : ∀ l ∈ gathered ++ pending, g.Holds l
  nodup : (gathered.map Loaded.id).Nodup
  closed : ∀ l ∈ gathered, ∀ e ∈ l.references.edges,
    e.target.document ∈ gathered.map Loaded.id ∨ e.target.document ∈ pending.map Loaded.id

inductive Finds (files : FileSystem) (present : List DocumentId) : List Edge → Graph → List Loaded → Graph → Prop
  | nil (g : Graph) : Finds files present [] g [] g
  | skip {e : Edge} {edges : List Edge} {g h : Graph} {found : List Loaded} : e.target.document ∈ present →
    Finds files present edges g found h → Finds files present (e :: edges) g found h
  | load {e : Edge} {edges : List Edge} {g h : Graph} {d : Loaded} {found : List Loaded} :
    e.target.document ∉ present → (g.load files e.target.document).1 = .ok d →
    Finds files present edges (g.load files e.target.document).2 found h →
    Finds files present (e :: edges) g (d :: found) h

/-- From the documents gathered so far and those pending, all of `result` is gathered. -/
inductive Gathering (files : FileSystem) : List Loaded → List Loaded → Graph → List Loaded → Graph → Prop
  | done (gathered : List Loaded) (g : Graph) : Gathering files gathered [] g gathered g
  | skip {gathered pending result : List Loaded} {d : Loaded} {g h : Graph} : d.id ∈ gathered.map Loaded.id →
    Gathering files gathered pending g result h → Gathering files gathered (d :: pending) g result h
  | take {gathered pending found result : List Loaded} {d : Loaded} {g next h : Graph} :
    d.id ∉ gathered.map Loaded.id → Finds files (d.id :: gathered.map Loaded.id) d.references.edges g found next →
    Gathering files (gathered ++ [d]) (found.reverse ++ pending) next result h →
    Gathering files gathered (d :: pending) g result h

/-- What is gathered stays in front. -/
theorem Gathering.isPrefix {gathered pending result : List Loaded} (h : Gathering files gathered pending g result g₀) :
    gathered <+: result := by
  induction h with
  | done => exact List.prefix_refl _
  | skip _ _ ih => exact ih
  | take _ _ _ ih => exact (List.prefix_append _ _).trans ih

theorem loads_loadTargets (files : FileSystem) (hg : g.Consistent) (present : List DocumentId)
    {edges : List Edge}
    (hedges : ∀ e ∈ edges, ∃ d, g.outcome? e.target.document = some (.ok d)) :
    ∃ asked, Loads files g asked (loadTargets files present edges g).2 ∧
      (∀ l ∈ (loadTargets files present edges g).1, (loadTargets files present edges g).2.Holds l) ∧
      (∀ e ∈ edges, e.target.document ∈ present ∨
        e.target.document ∈ (loadTargets files present edges g).1.map Loaded.id) ∧
      Finds files present edges g (loadTargets files present edges g).1 (loadTargets files present edges g).2 := by
  induction edges generalizing g with
  | nil =>
    exact ⟨[], .nil g, fun l hl => absurd hl List.not_mem_nil, fun e he => absurd he List.not_mem_nil, .nil g⟩
  | cons e edges ih =>
    rw [loadTargets]
    by_cases hpresent : e.target.document ∈ present
    · rw [if_pos hpresent]
      obtain ⟨asked, hloads, hheld, hcovered, hfinds⟩ := ih hg fun e' he' => hedges e' (List.mem_cons_of_mem e he')
      refine ⟨asked, hloads, hheld, fun e' he' => ?_, .skip hpresent hfinds⟩
      rcases List.mem_cons.mp he' with rfl | he'
      · exact .inl hpresent
      · exact hcovered e' he'
    · rw [if_neg hpresent]
      obtain ⟨d, hd⟩ := hedges e (List.mem_cons_self ..)
      have hid := Graph.mem_ids_iff.mpr ⟨_, hd⟩
      obtain ⟨l, hl, rfl⟩ := hg.load_of_known files hd
      have hload := hg.loading files e.target.document
      obtain ⟨asked, hloads, hheld, hcovered, hfinds⟩ := ih hload.consistent fun e' he' => by
        obtain ⟨d', hd'⟩ := hedges e' (List.mem_cons_of_mem e he')
        exact ⟨d', hload.toExtends.outcome? hd'⟩
      have hl' := (hload.holds l hl).extend (hloads.grows hload.consistent).toExtends
      have hanswer : g.load files e.target.document = (.ok l, (g.load files e.target.document).2) := by
        rw [← hl]
      rw [hanswer]
      refine ⟨_, .cons hid hloads, fun l' hmem => ?_, fun e' he' => ?_, .load hpresent hl hfinds⟩
      · rcases List.mem_cons.mp hmem with rfl | hmem
        · exact hl'
        · exact hheld l' hmem
      · rw [List.map_cons]
        rcases List.mem_cons.mp he' with rfl | he'
        · exact .inr (List.mem_cons.mpr (.inl (hg.id_eq hd).symm))
        · exact (hcovered e' he').imp_right (List.mem_cons_of_mem _)

theorem Gathers.skip {gathered pending : List Loaded} {d : Loaded} (h : Gathers g gathered (d :: pending))
    (hd : d.id ∈ gathered.map Loaded.id) : Gathers g gathered pending := by
  refine ⟨fun l hl => h.held l ?_, h.nodup, fun l hl e he => ?_⟩
  · rw [List.mem_append] at hl ⊢
    exact hl.imp_right (List.mem_cons_of_mem d)
  · rcases h.closed l hl e he with hgathered | hpending
    · exact .inl hgathered
    · rcases List.mem_cons.mp hpending with heq | hpending
      · exact .inl (heq ▸ hd)
      · exact .inr hpending

/-- Taking a document off those pending puts in what its edges lead to. -/
theorem Gathers.take {gathered pending : List Loaded} {d : Loaded} (hg : g.Consistent)
    (h : Gathers g gathered (d :: pending)) (hd : d.id ∉ gathered.map Loaded.id) {found : List Loaded}
    {next : Graph}
    (hnext : loadTargets files (d.id :: gathered.map Loaded.id) d.references.edges g = (found, next)) :
    (∃ asked, Loads files g asked next) ∧ Gathers next (gathered ++ [d]) (found.reverse ++ pending) ∧
      Finds files (d.id :: gathered.map Loaded.id) d.references.edges g found next := by
  have hheld : g.Holds d := h.held d (List.mem_append_right _ (List.mem_cons_self ..))
  obtain ⟨asked, hloads, hfound, hcovered, hfinds⟩ := loads_loadTargets files hg
    (d.id :: gathered.map Loaded.id) fun e he => (hg.target hheld he).imp fun _ h => h.1
  rw [hnext] at hloads hfound hcovered hfinds
  have hgrown := (hloads.grows hg).toExtends
  refine ⟨⟨asked, hloads⟩, ⟨fun l hl => ?_, ?_, fun l hl e he => ?_⟩, hfinds⟩
  · simp only [List.mem_append, List.mem_singleton, List.mem_reverse] at hl
    rcases hl with (hl | rfl) | hl | hl
    · exact (h.held l (List.mem_append_left _ hl)).extend hgrown
    · exact hheld.extend hgrown
    · exact hfound l hl
    · exact (h.held l (List.mem_append_right _ (List.mem_cons_of_mem d hl))).extend hgrown
  · rw [List.map_append, List.nodup_append]
    refine ⟨h.nodup, List.pairwise_singleton .., fun i hi j hj => ?_⟩
    rw [List.map_singleton, List.mem_singleton] at hj
    rintro rfl
    exact hd (hj ▸ hi)
  · simp only [List.map_append, List.mem_append, List.map_reverse, List.mem_reverse, List.map_singleton,
      List.mem_singleton]
    rcases List.mem_append.mp hl with hl | hl
    · rcases h.closed l hl e he with hgathered | hpending
      · exact .inl (.inl hgathered)
      · rcases List.mem_cons.mp hpending with heq | hpending
        · exact .inl (.inr heq)
        · exact .inr (.inr hpending)
    · obtain rfl := List.mem_singleton.mp hl
      rcases hcovered e he with hpresent | hfresh
      · rcases List.mem_cons.mp hpresent with heq | hgathered
        · exact .inl (.inr heq)
        · exact .inl (.inl hgathered)
      · exact .inr (.inl hfresh)

/-- **Gathering ends with nothing pending.** -/
theorem gathers_gather (room : Nat) {g : Graph} {gathered pending : List Loaded} (hgrows : Grows files g₀ g)
    (h : Gathers g gathered pending)
    (hroom : files.files.length + g₀.entries.length ≤ room + gathered.length) :
    (∃ asked, Loads files g asked (gather files room gathered pending g).2) ∧
      Gathers (gather files room gathered pending g).2 (gather files room gathered pending g).1 [] ∧
      Gathering files gathered pending g (gather files room gathered pending g).1
        (gather files room gathered pending g).2 := by
  cases pending with
  | nil =>
    rw [gather.eq_def]
    exact ⟨⟨[], .nil g⟩, h, .done gathered g⟩
  | cons d pending =>
    rw [gather.eq_def]
    dsimp only
    by_cases hd : d.id ∈ gathered.map Loaded.id
    · rw [if_pos hd]
      obtain ⟨hloads, hall, hgathering⟩ := gathers_gather room hgrows (h.skip hd) hroom
      exact ⟨hloads, hall, .skip hd hgathering⟩
    · rw [if_neg hd]
      cases room with
      | zero =>
        -- there would be one document more than can be
        have hnodup : (d.id :: gathered.map Loaded.id).Nodup := List.nodup_cons.mpr ⟨hd, h.nodup⟩
        have hlength := hgrows.length_le hnodup fun id hid => ?_
        · rw [List.length_cons, List.length_map] at hlength
          omega
        · obtain ⟨l, hl, rfl⟩ : ∃ l ∈ d :: gathered, l.id = id := List.mem_map.mp hid
          refine ⟨l.document, (h.held l ?_).document⟩
          rw [List.mem_append]
          rcases List.mem_cons.mp hl with rfl | hl
          · exact .inr (List.mem_cons_self ..)
          · exact .inl hl
      | succ room =>
        cases hnext : loadTargets files (d.id :: gathered.map Loaded.id) d.references.edges g with
        | mk found next =>
          obtain ⟨⟨asked, hloads⟩, hinv, hfinds⟩ := h.take hgrows.consistent hd hnext
          have hgrown := hgrows.trans (hloads.grows hgrows.consistent)
          obtain ⟨⟨asked', hloads'⟩, hall, hgathering⟩ := gathers_gather room hgrown hinv (by
            rw [List.length_append, List.length_singleton]
            omega)
          exact ⟨⟨asked ++ asked', hloads.append hloads'⟩, hall, .take hd hfinds hgathering⟩
termination_by (room, pending.length)

/-- What a view is made of. -/
theorem gathers_ofLoaded (hg : g.Consistent) (files : FileSystem) {root : Loaded} (hroot : g.Holds root) :
    (∃ asked, Loads files g asked (ofLoaded files g root).2) ∧
      Gathers (ofLoaded files g root).2 (ofLoaded files g root).1.documents [] ∧
      Gathering files [] [root] g (ofLoaded files g root).1.documents (ofLoaded files g root).2 := by
  have hstart : Gathers g [] [root] := by
    refine ⟨fun l hl => ?_, List.nodup_nil, fun l hl => absurd hl List.not_mem_nil⟩
    obtain rfl := List.mem_singleton.mp hl
    exact hroot
  cases hnext : loadTargets files [root.id] root.references.edges g with
  | mk found next =>
    obtain ⟨⟨asked, hloads⟩, hinv, hfinds⟩ := hstart.take hg List.not_mem_nil hnext
    rw [List.append_nil] at hinv
    obtain ⟨⟨asked', hloads'⟩, hall, hgathering⟩ := gathers_gather (files.files.length + g.entries.length)
      (hloads.grows hg) hinv (Nat.le_add_right _ _)
    rw [ofLoaded, hnext]
    dsimp only
    cases hgather : gather files (files.files.length + g.entries.length) [root] found.reverse next with
    | mk documents final =>
      rw [List.nil_append, hgather] at hloads' hall hgathering
      obtain ⟨others, rfl⟩ := hgathering.isPrefix
      refine ⟨⟨asked ++ asked', hloads.append hloads'⟩, hall, .take List.not_mem_nil hfinds ?_⟩
      rwa [List.append_nil]

theorem loadTargets_of_present {present : List DocumentId} {edges : List Edge}
    (h : ∀ e ∈ edges, e.target.document ∈ present) (files : FileSystem) (g : Graph) :
    loadTargets files present edges g = ([], g) := by
  induction edges with
  | nil => rfl
  | cons e edges ih =>
    rw [loadTargets, if_pos (h e (List.mem_cons_self ..))]
    exact ih fun e' he' => h e' (List.mem_cons_of_mem e he')

/-- A document whose references stay in it is a view by itself. -/
theorem ofLoaded_of_own {root : Loaded} (files : FileSystem) (g : Graph)
    (hown : ∀ e ∈ root.references.edges, e.target.document = root.id) :
    ofLoaded files g root = (⟨root, []⟩, g) := by
  rw [ofLoaded, loadTargets_of_present fun e he => List.mem_singleton.mpr (hown e he)]
  dsimp only
  rw [List.reverse_nil, gather.eq_def]
  rfl

theorem ofDocument_of_own {g' : Graph} {id : DocumentId} {root : Loaded}
    (hload : g.load files id = (.ok root, g'))
    (hown : ∀ e ∈ root.references.edges, e.target.document = root.id) :
    ofDocument files g id = (.ok ⟨root, []⟩, g') := by
  rw [ofDocument, hload]
  dsimp only
  rw [ofLoaded_of_own files g' hown]

/-- A document and the only one that it refers to are a view if the references of the other one stay in it. -/
theorem ofLoaded_of_pair {root other : Loaded} {next : Graph}
    (hfound : loadTargets files [root.id] root.references.edges g = ([other], next))
    (hfiles : files.files ≠ []) (hother : other.id ≠ root.id)
    (hown : ∀ e ∈ other.references.edges, e.target.document = other.id) :
    ofLoaded files g root = (⟨root, [other]⟩, next) := by
  have hroom : files.files.length + g.entries.length ≠ 0 := by
    have hlength := List.length_pos_of_ne_nil hfiles
    omega
  obtain ⟨room, hroom⟩ := Nat.exists_eq_succ_of_ne_zero hroom
  rw [ofLoaded, hfound]
  dsimp only
  rw [hroom, List.reverse_singleton, gather.eq_def]
  dsimp only
  rw [if_neg (by simpa using hother), loadTargets_of_present fun e he => List.mem_cons.mpr (.inl (hown e he))]
  dsimp only
  rw [List.reverse_nil, List.nil_append, gather.eq_def]
  rfl

/-- **The edges of a view lead to documents of the view**, and the graph has them all. -/
theorem gathers_ofDocument (hg : g.Consistent) {id : DocumentId} {v : View}
    (h : ofDocument files g id = (.ok v, g₀)) : g₀.Consistent ∧ Gathers g₀ v.documents [] := by
  have hload := hg.loading files id
  rw [ofDocument] at h
  cases hanswer : g.load files id with
  | mk answer next =>
    rw [hanswer] at h hload
    cases answer with
    | error e => cases h
    | ok root =>
      obtain ⟨⟨asked, hloads⟩, hall, -⟩ :=
        gathers_ofLoaded hload.consistent files (hload.holds root rfl)
      cases h
      exact ⟨(hloads.grows hload.consistent).consistent, hall⟩

end View

end ApiLint
