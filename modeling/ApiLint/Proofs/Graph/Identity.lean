import ApiLint.Proofs.Graph.Sessions
import ApiLint.Record

/-!
# Documents and their ids

The id of a document is the canonical form of the path that it was loaded under.  All that is done with a document
later names it by this id, and takes the canonical form of the id once more.  Where that is the id itself, the document
is found (`Session.FoundById`); where it is not, another path is looked up.

`Graph.Continues` is what loading does to a graph in any base directory, a relative one too: what is known stays known,
and documents stand under their ids.  With it, `Session.identity` says of every base directory and every path when a
document that was loaded is found by its id.
-/

namespace ApiLint

open ApiLint.FilePath (Anchored)

namespace Graph

def Labelled (g : Graph) : Prop :=
  ∀ id d, g.outcome? id = some (.ok d) → d.id = id

/-- `h` came of `g` by loading documents, one after another. -/
structure Continues (g h : Graph) : Prop extends g.Extends h where
  labelled : g.Labelled → h.Labelled

variable {g h k : Graph} {files : FileSystem} {asked : List DocumentId} {p : FilePath} {d : Document}

theorem Continues.refl (g : Graph) : g.Continues g :=
  ⟨.refl g, id⟩

theorem Continues.trans (hgh : g.Continues h) (hhk : h.Continues k) : g.Continues k :=
  ⟨hgh.toExtends.trans hhk.toExtends, fun hg => hhk.labelled (hgh.labelled hg)⟩

theorem labelled_empty (base : FilePath) : (empty base).Labelled :=
  fun _ _ h => by cases h

theorem outcome?_of_get (h : g.get p = .ok d) : g.outcome? (g.canonical p) = some (.ok d) := by
  rw [get] at h
  cases he : g.entry? (g.canonical p) with
  | none =>
    simp only [he] at h
    cases h
  | some e =>
    simp only [he] at h
    rw [outcome?, he, Option.map_some, h]

/-! ### Loading -/

theorem Labelled.loadParsed (hg : g.Labelled) (files : FileSystem) (p : FilePath) :
    (g.loadParsed files p).2.Labelled := by
  cases ho : g.outcome? (g.canonical p) with
  | some o =>
    rw [loadParsed_of_some ho]
    exact hg
  | none =>
    rw [loadParsed_of_none ho]
    intro id d hd
    rw [outcome?_add] at hd
    rcases Option.or_eq_some_iff.mp hd with hold | ⟨-, hnew⟩
    · exact hg id d hold
    · split at hnew
      · next hid =>
        rw [← hid]
        exact Document.id_of_read (read_of_fetch (Option.some.inj hnew))
      · cases hnew

theorem Asks.continues (hgh : Asks files g asked h) : g.Continues h := by
  refine ⟨hgh.toExtends, ?_⟩
  induction hgh with
  | nil => exact id
  | cons p _ ih => exact fun hg => ih (hg.loadParsed files p)

theorem exists_asks_resolveAll (files : FileSystem) (d : Document) (sites : List (Path × String)) (g : Graph) :
    ∃ asked, Asks files g asked (resolveAll files d sites g).2 := by
  induction sites generalizing g with
  | nil => exact ⟨[], .nil g⟩
  | cons s sites ih =>
    have hlocate : ∃ asked, Asks files g asked (g.locate files d s.1 s.2).2 := by
      rw [locate_eq]
      cases g.target? d s.2 with
      | none => exact ⟨[], .nil g⟩
      | some id => exact ⟨_, asks_loadParsed files g id⟩
    obtain ⟨first, hfirst⟩ := hlocate
    obtain ⟨rest, hrest⟩ := ih (g.locate files d s.1 s.2).2
    rw [resolveAll_snd_cons]
    exact ⟨_, hfirst.append hrest⟩

theorem continues_setReferences {id : DocumentId} (hnone : g.table? id = none) (t : ReferenceTable) :
    g.Continues (g.setReferences id t) := by
  refine ⟨.setReferences hnone t, fun hg id d hd => hg id d ?_⟩
  rwa [outcome?_setReferences] at hd

theorem loadParsed_continues_load (files : FileSystem) (g : Graph) (p : FilePath) :
    (g.loadParsed files p).2.Continues (g.load files p).2 := by
  rw [load_eq]
  dsimp only
  cases (g.loadParsed files p).1 with
  | error e => exact .refl _
  | ok d =>
    dsimp only
    cases htable : (g.loadParsed files p).2.table? d.id with
    | some t => exact .refl _
    | none =>
      obtain ⟨asked, hasks⟩ := exists_asks_resolveAll files d d.value.references (g.loadParsed files p).2
      exact hasks.continues.trans (continues_setReferences (by rw [hasks.table?, htable]) _)

theorem continues_load (files : FileSystem) (g : Graph) (p : FilePath) : g.Continues (g.load files p).2 :=
  (asks_loadParsed files g p).continues.trans (loadParsed_continues_load files g p)

theorem continues_followFrom (files : FileSystem) (links : Nat) (g : Graph) (visited : List Location) (source : Loaded)
    (p : Path) : g.Continues (followFrom files links g visited source p).2 := by
  induction links generalizing g visited source p with
  | zero =>
    rw [followFrom]
    split
    · split <;> exact .refl g
    · split <;> exact .refl g
  | succ links ih =>
    rw [followFrom]
    split
    · split <;> exact .refl g
    · next e _ =>
      split
      · exact .refl g
      · have hload := continues_load files g e.target.document
        dsimp only
        split
        · exact ih g _ _ _
        · split
          · next hnext =>
            rw [hnext] at hload
            exact hload
          · next hnext =>
            rw [hnext] at hload
            exact hload.trans (ih _ _ _ _)

end Graph

namespace View

variable {files : FileSystem} {g : Graph}

theorem continues_loadTargets (files : FileSystem) (present : List DocumentId) (edges : List Edge) (g : Graph) :
    g.Continues (loadTargets files present edges g).2 := by
  induction edges generalizing g with
  | nil => exact .refl g
  | cons e edges ih =>
    rw [loadTargets]
    split
    · exact ih g
    · have hload := Graph.continues_load files g e.target.document
      cases hanswer : g.load files e.target.document with
      | mk answer next =>
        rw [hanswer] at hload
        cases answer with
        | error e => exact hload.trans (ih next)
        | ok d => exact hload.trans (ih next)

theorem continues_gather (files : FileSystem) (room : Nat) (gathered pending : List Loaded) (g : Graph) :
    g.Continues (gather files room gathered pending g).2 := by
  rw [gather.eq_def]
  cases pending with
  | nil => exact .refl g
  | cons d pending =>
    dsimp only
    split
    · exact continues_gather files room gathered pending g
    · cases room with
      | zero => exact .refl g
      | succ room =>
        have hfound := continues_loadTargets files (d.id :: gathered.map Loaded.id) d.references.edges g
        exact hfound.trans (continues_gather files room _ _ _)
termination_by (room, pending.length)

theorem load_continues_ofDocument (files : FileSystem) (g : Graph) (id : DocumentId) :
    (g.load files id).2.Continues (ofDocument files g id).2 := by
  rw [ofDocument]
  cases g.load files id with
  | mk answer next =>
    cases answer with
    | error e => exact .refl next
    | ok root =>
      have hfound := continues_loadTargets files [root.id] root.references.edges next
      exact hfound.trans (continues_gather files _ _ _ _)

end View

namespace Session

variable {s : Session} {base p : FilePath} {d : Document}

/-- An operation that loads a path goes on from the graph in which the path was asked for. -/
theorem loadParsed_continues_step {op : Operation} (hp : op.path? = some p) :
    (s.graph.loadParsed s.files p).2.Continues (s.step op).graph := by
  have hload := Graph.loadParsed_continues_load s.files s.graph p
  cases op with
  | load q =>
    cases hp
    exact hload
  | loadParsed q =>
    cases hp
    exact .refl _
  | get q => cases hp
  | follow id q =>
    cases hp
    refine hload.trans ?_
    show (s.graph.load s.files p).2.Continues (s.graph.follow s.files p q).2
    rw [Graph.follow]
    cases s.graph.load s.files p with
    | mk answer next =>
      cases answer with
      | error e => exact .refl next
      | ok source => exact Graph.continues_followFrom s.files _ next _ source q
  | view id =>
    cases hp
    exact hload.trans (View.load_continues_ofDocument s.files s.graph p)
  | insert q text => cases hp

theorem continues_step (s : Session) (op : Operation) : s.graph.Continues (s.step op).graph := by
  cases hp : op.path? with
  | some p => exact (Graph.asks_loadParsed s.files s.graph p).continues.trans (loadParsed_continues_step hp)
  | none =>
    cases op with
    | get q => exact .refl _
    | insert q text => exact .refl _
    | _ => cases hp

theorem continues_run (s : Session) (ops : List Operation) : s.graph.Continues (s.run ops).graph := by
  induction ops generalizing s with
  | nil => exact .refl _
  | cons op ops ih => exact (continues_step s op).trans (ih (s.step op))

theorem From.labelled (hs : s.From base) : s.graph.Labelled := by
  obtain ⟨files, ops, rfl⟩ := hs
  exact (continues_run ⟨files, .empty base⟩ ops).labelled (Graph.labelled_empty base)

theorem From.base_eq (hs : s.From base) : s.graph.base = base := by
  obtain ⟨files, ops, rfl⟩ := hs
  exact (continues_run ⟨files, .empty base⟩ ops).toExtends.base

/-! ### Found by the id -/

structure FoundById (s : Session) (d : Document) : Prop where
  /-- It is the document that is known under its id. -/
  known : s.graph.get d.id = .ok d
  /-- Asked for by its id, it is loaded with its references, and chains of references and views start with it. -/
  loaded : ∃ l : Loaded, l.document = d ∧ (s.graph.load s.files d.id).1 = .ok l ∧
    (∀ q, (s.graph.follow s.files d.id q).1 = .ok ((s.graph.load s.files d.id).2.followLoaded s.files l q).1) ∧
    ∃ v, (View.ofDocument s.files s.graph d.id).1 = .ok v ∧ v.root = l
  /-- Places in it are traced back to its text. -/
  traced : ∀ q, Record.spanOf s.graph d.id q = d.spanNear q

theorem foundById_of_known (hd : s.graph.outcome? d.id = some (.ok d)) (hid : s.graph.canonical d.id = d.id) :
    FoundById s d := by
  have hknown : s.graph.get d.id = .ok d := Graph.get_of_outcome? (by rw [hid, hd])
  have hparsed : (s.graph.loadParsed s.files d.id).1 = .ok d := by rw [Graph.loadParsed_of_some (by rw [hid, hd])]
  obtain ⟨l, hload, hl⟩ := Graph.exists_load_of_loadParsed hparsed
  have hpair : s.graph.load s.files d.id = (.ok l, (s.graph.load s.files d.id).2) := by rw [← hload]
  refine ⟨hknown, ⟨l, hl, hload, fun q => ?followed, ?viewed⟩, fun q => ?traced⟩
  case followed =>
    rw [Graph.follow, hpair]
  case viewed =>
    rw [View.ofDocument, hpair]
    exact ⟨_, rfl, rfl⟩
  case traced =>
    rw [Record.spanOf, hknown]

/-- **A document is found by its id if and only if the id is its own canonical form.** -/
theorem foundById_iff (hs : s.graph.Labelled) (hd : s.graph.outcome? d.id = some (.ok d)) :
    FoundById s d ↔ s.graph.canonical d.id = d.id := by
  refine ⟨fun h => ?_, foundById_of_known hd⟩
  exact (hs _ d (Graph.outcome?_of_get h.known)).symm

/-- The documents of all sessions in the base directory `base` that are loaded under the path `p`, and their ids. -/
structure Identity (base p : FilePath) : Prop where
  /-- Their id has no dots and no double dots. -/
  plain : ∀ c ∈ (FilePath.canonical base p).components, c = .root ∨ ∃ n, c = .name n
  /-- It is its own canonical form if and only if the path is anchored. -/
  stable : FilePath.canonical base (FilePath.canonical base p) = FilePath.canonical base p ↔ Anchored base p
  /-- What an operation loads under the path is known under the path afterwards. -/
  loaded : ∀ s, From base s → ∀ op, Operation.path? op = some p →
    (s.step op).graph.get p = (s.graph.loadParsed s.files p).1
  /-- If a document is known under the path, then the id is that of the document, and after any further operations
  the document is found by the id if and only if the path is anchored. -/
  found : ∀ s, From base s → ∀ d, s.graph.get p = .ok d → d.id = FilePath.canonical base p ∧
    ∀ ops, FoundById (s.run ops) d ↔ Anchored base p

/-- **Documents and their ids.**  In every base directory, whatever path a document was loaded under, it is found by its
id if and only if the path is anchored. -/
theorem identity (base p : FilePath) : Identity base p where
  plain c hc := FilePath.eq_of_mem_components_canonical hc
  stable := FilePath.canonical_canonical_iff base p
  loaded s _ op hp := by
    have hcontinues := loadParsed_continues_step (s := s) hp
    refine Graph.get_of_outcome? ?_
    rw [(continues_step s op).toExtends.canonical]
    exact hcontinues.toExtends.outcome? (Graph.outcome?_loadParsed s.files s.graph p)
  found s hs d hd := by
    have hcanonical : s.graph.canonical p = FilePath.canonical base p := by rw [Graph.canonical, hs.base_eq]
    have hknown := Graph.outcome?_of_get hd
    have hid : d.id = FilePath.canonical base p := by rw [hs.labelled _ d hknown, hcanonical]
    refine ⟨hid, fun ops => ?_⟩
    have hrun := continues_run s ops
    have hlater : (s.run ops).graph.outcome? d.id = some (.ok d) :=
      hrun.toExtends.outcome? (by rw [hid, ← hcanonical, hknown])
    rw [foundById_iff (hrun.labelled hs.labelled) hlater, hrun.toExtends.canonical, Graph.canonical, hs.base_eq, hid]
    exact FilePath.canonical_canonical_iff base p

/-- The document `1` at the given path, loaded under another in a base directory. -/
def ofOne (base place p : FilePath) : Session :=
  run ⟨⟨[(place, "1")], fun _ => "no such file"⟩, .empty base⟩ [.load p]

theorem from_ofOne (base place p : FilePath) : (ofOne base place p).From base :=
  ⟨_, _, rfl⟩

theorem exists_of_isSome_toOption {g : Graph} (h : (g.get p).toOption.isSome) : ∃ d, g.get p = .ok d := by
  cases hd : g.get p with
  | error e =>
    rw [hd] at h
    cases h
  | ok d => exact ⟨d, rfl⟩

/-- A path goes out of its directory and back, and a relative base directory leaves no name. -/
theorem identity_of_detours :
    (∃ s d, From ⟨"/specs"⟩ s ∧ s.graph.get ⟨"../specs/./a.json"⟩ = .ok d ∧ d.id = ⟨"/specs/a.json"⟩ ∧ FoundById s d) ∧
      ∃ s d, From ⟨"specs/.."⟩ s ∧ s.graph.get ⟨"./a.json"⟩ = .ok d ∧ d.id = ⟨"a.json"⟩ ∧ FoundById s d := by
  constructor
  · have hs := from_ofOne ⟨"/specs"⟩ ⟨"/specs/a.json"⟩ ⟨"a.json"⟩
    obtain ⟨d, hd⟩ : ∃ d, (ofOne ⟨"/specs"⟩ ⟨"/specs/a.json"⟩ ⟨"a.json"⟩).graph.get ⟨"../specs/./a.json"⟩ = .ok d :=
      exists_of_isSome_toOption (by decide +kernel)
    obtain ⟨hid, hfound⟩ := (identity ⟨"/specs"⟩ ⟨"../specs/./a.json"⟩).found _ hs d hd
    exact ⟨_, d, hs, hd, by rw [hid]; decide +kernel, (hfound []).mpr (.inl (by decide +kernel))⟩
  · have hs := from_ofOne ⟨"specs/.."⟩ ⟨"a.json"⟩ ⟨"a.json"⟩
    obtain ⟨d, hd⟩ : ∃ d, (ofOne ⟨"specs/.."⟩ ⟨"a.json"⟩ ⟨"a.json"⟩).graph.get ⟨"./a.json"⟩ = .ok d :=
      exists_of_isSome_toOption (by decide +kernel)
    obtain ⟨hid, hfound⟩ := (identity ⟨"specs/.."⟩ ⟨"./a.json"⟩).found _ hs d hd
    exact ⟨_, d, hs, hd, by rw [hid]; decide +kernel, (hfound []).mpr (.inr (.inr (by decide +kernel)))⟩

/-- A relative base directory is put in front of the id again, and no document is loaded there. -/
theorem not_found_in_relative_directory :
    ∃ s d, From ⟨"specs"⟩ s ∧ s.graph.get ⟨"a.json"⟩ = .ok d ∧ d.id = s.graph.canonical ⟨"a.json"⟩ ∧
      s.graph.canonical d.id ≠ d.id ∧ s.graph.get d.id = .error (.notLoaded ⟨"specs/specs/a.json"⟩) := by
  have hs := from_ofOne ⟨"specs"⟩ ⟨"specs/a.json"⟩ ⟨"a.json"⟩
  obtain ⟨d, hd⟩ : ∃ d, (ofOne ⟨"specs"⟩ ⟨"specs/a.json"⟩ ⟨"a.json"⟩).graph.get ⟨"a.json"⟩ = .ok d :=
    exists_of_isSome_toOption (by decide +kernel)
  have hid := hs.labelled _ d (Graph.outcome?_of_get hd)
  have hagain : (ofOne ⟨"specs"⟩ ⟨"specs/a.json"⟩ ⟨"a.json"⟩).graph.canonical d.id = ⟨"specs/specs/a.json"⟩ := by
    rw [hid]
    decide +kernel
  refine ⟨_, d, hs, hd, hid, ?_, ?_⟩
  · rw [hagain, hid]
    decide +kernel
  · rw [Graph.get_of_not_mem (by rw [hagain]; decide +kernel), hagain]

end Session

end ApiLint
