import ApiLint.Proofs.Graph.Sessions

/-!
# Documents are what their contents read as

A document comes into a graph in one way only: the file of a path that is asked for the first time is read.  So every
document that a graph has is what its content reads as, whatever the graph was asked for (`Session.From.isRead`), and so is
every document of a view (`View.allRead_ofLoaded`).

`Graph.Consistent` says so too, and more, but of graphs in an absolute base directory only.  In a relative one ids move when
they are looked up, so that documents are found under other ids than they were asked for.  They are read all the same.
-/

namespace ApiLint

def Document.IsRead (d : Document) : Prop :=
  Document.read d.id d.content = .ok d

namespace Graph

def IsRead (g : Graph) : Prop :=
  ∀ d ∈ g.documents, d.IsRead

variable {g h : Graph} {files : FileSystem}

theorem isRead_empty (base : FilePath) : (empty base).IsRead :=
  fun _ hd => absurd hd List.not_mem_nil

theorem isRead_of_fetch {id : DocumentId} {d : Document} (h : fetch files id = .ok d) : d.IsRead := by
  have hread := read_of_fetch h
  rw [Document.IsRead, Document.id_of_read hread, hread]

theorem documents_setReferences (g : Graph) (id : DocumentId) (t : ReferenceTable) :
    (g.setReferences id t).documents = g.documents := by
  rw [documents_eq, documents_eq, outcomes_setReferences]

namespace IsRead

theorem loadParsed (hg : g.IsRead) (files : FileSystem) (p : FilePath) :
    (g.loadParsed files p).2.IsRead ∧ ∀ d, (g.loadParsed files p).1 = .ok d → d.IsRead := by
  cases ho : g.outcome? (g.canonical p) with
  | some o =>
    rw [loadParsed_of_some ho]
    exact ⟨hg, fun d hd => hg d (mem_documents_of_outcome? (ho.trans (congrArg some hd)))⟩
  | none =>
    rw [loadParsed_of_none ho]
    refine ⟨fun d hd => ?_, fun d hd => isRead_of_fetch hd⟩
    rw [documents_eq, outcomes_add, List.filterMap_append, ← documents_eq, List.mem_append] at hd
    rcases hd with hd | hd
    · exact hg d hd
    · obtain ⟨o, ho, hd⟩ := List.mem_filterMap.mp hd
      rw [List.mem_singleton.mp ho] at hd
      cases hfetch : fetch files (g.canonical p) with
      | error e =>
        rw [hfetch] at hd
        cases hd
      | ok d' =>
        rw [hfetch] at hd
        cases hd
        exact isRead_of_fetch hfetch

theorem setReferences (hg : g.IsRead) (id : DocumentId) (t : ReferenceTable) : (g.setReferences id t).IsRead := by
  rw [IsRead, documents_setReferences]
  exact hg

theorem locate (hg : g.IsRead) (files : FileSystem) (source : Document) (origin : Path) (reference : String) :
    (g.locate files source origin reference).2.IsRead := by
  rw [locate_eq]
  cases g.target? source reference with
  | none => exact hg
  | some id => exact (hg.loadParsed files id).1

theorem resolveAll (hg : g.IsRead) (files : FileSystem) (source : Document) (sites : List (Path × String)) :
    (resolveAll files source sites g).2.IsRead := by
  induction sites generalizing g with
  | nil => exact hg
  | cons s sites ih =>
    rw [resolveAll_snd_cons]
    exact ih (hg.locate files source s.1 s.2)

theorem load (hg : g.IsRead) (files : FileSystem) (p : FilePath) :
    (g.load files p).2.IsRead ∧ ∀ l, (g.load files p).1 = .ok l → l.document.IsRead := by
  obtain ⟨hparsed, hread⟩ := hg.loadParsed files p
  rw [load_eq]
  dsimp only
  cases hanswer : (g.loadParsed files p).1 with
  | error e => exact ⟨hparsed, fun l hl => nomatch hl⟩
  | ok d =>
    have hd := hread d hanswer
    dsimp only
    cases (g.loadParsed files p).2.table? d.id with
    | some t => exact ⟨hparsed, fun l hl => by rwa [← Except.ok.inj hl]⟩
    | none =>
      exact ⟨(hparsed.resolveAll files d d.value.references).setReferences _ _, fun l hl => by
        rwa [← Except.ok.inj hl]⟩

theorem followFrom (hg : g.IsRead) (files : FileSystem) (links : Nat) (visited : List Location) (source : Loaded)
    (p : Path) : (followFrom files links g visited source p).2.IsRead := by
  induction links generalizing g visited source p with
  | zero =>
    rw [Graph.followFrom]
    split
    · split <;> exact hg
    · split <;> exact hg
  | succ links ih =>
    rw [Graph.followFrom]
    split
    · split <;> exact hg
    · next e _ =>
      split
      · exact hg
      · have hload := (hg.load files e.target.document).1
        dsimp only
        split
        · exact ih hg _ _ _
        · split
          · next hnext =>
            rw [hnext] at hload
            exact hload
          · next hnext =>
            rw [hnext] at hload
            exact ih hload _ _ _

theorem follow (hg : g.IsRead) (files : FileSystem) (id : DocumentId) (p : Path) :
    (g.follow files id p).2.IsRead := by
  have hload := (hg.load files id).1
  rw [Graph.follow]
  cases hanswer : g.load files id with
  | mk answer next =>
    rw [hanswer] at hload
    cases answer with
    | error e => exact hload
    | ok source => exact hload.followFrom files _ _ source p

end IsRead

end Graph

/-! ### Views -/

def Loaded.AllRead (ds : List Loaded) : Prop :=
  ∀ d ∈ ds, d.document.IsRead

namespace View

variable {g : Graph} {files : FileSystem}

theorem allRead_loadTargets (hg : g.IsRead) (files : FileSystem) (present : List DocumentId) (edges : List Edge) :
    (loadTargets files present edges g).2.IsRead ∧ Loaded.AllRead (loadTargets files present edges g).1 := by
  induction edges generalizing g with
  | nil => exact ⟨hg, fun d hd => absurd hd List.not_mem_nil⟩
  | cons e edges ih =>
    rw [loadTargets]
    split
    · exact ih hg
    · obtain ⟨hload, hread⟩ := hg.load files e.target.document
      cases hanswer : g.load files e.target.document with
      | mk answer next =>
        rw [hanswer] at hload hread
        obtain ⟨hlast, hfound⟩ := ih hload
        cases answer with
        | error e => exact ⟨hlast, hfound⟩
        | ok d =>
          refine ⟨hlast, fun d' hd' => ?_⟩
          rcases List.mem_cons.mp hd' with rfl | hd'
          · exact hread d' rfl
          · exact hfound d' hd'

theorem allRead_gather (files : FileSystem) (room : Nat) {gathered pending : List Loaded} {g : Graph} (hg : g.IsRead)
    (hgathered : Loaded.AllRead gathered) (hpending : Loaded.AllRead pending) :
    (gather files room gathered pending g).2.IsRead ∧ Loaded.AllRead (gather files room gathered pending g).1 := by
  rw [gather.eq_def]
  cases pending with
  | nil => exact ⟨hg, hgathered⟩
  | cons d pending =>
    have hrest : Loaded.AllRead pending := fun d' hd' => hpending d' (List.mem_cons_of_mem d hd')
    dsimp only
    split
    · exact allRead_gather files room hg hgathered hrest
    · cases room with
      | zero => exact ⟨hg, hgathered⟩
      | succ room =>
        obtain ⟨hnext, hfound⟩ :=
          allRead_loadTargets hg files (d.id :: gathered.map Loaded.id) d.references.edges
        refine allRead_gather files room hnext (fun d' hd' => ?_) fun d' hd' => ?_
        · rcases List.mem_append.mp hd' with hd' | hd'
          · exact hgathered d' hd'
          · rw [List.mem_singleton.mp hd']
            exact hpending d (List.mem_cons_self ..)
        · rcases List.mem_append.mp hd' with hd' | hd'
          · exact hfound d' (List.mem_reverse.mp hd')
          · exact hrest d' hd'
termination_by (room, pending.length)

/-- **Every document of a view is what its content reads as**, if those of the graph and the viewed document are. -/
theorem allRead_ofLoaded (hg : g.IsRead) (files : FileSystem) {root : Loaded} (hroot : root.document.IsRead) :
    (ofLoaded files g root).2.IsRead ∧ Loaded.AllRead (ofLoaded files g root).1.documents := by
  have hown : Loaded.AllRead [root] := fun d hd => by rwa [List.mem_singleton.mp hd]
  obtain ⟨hnext, hfound⟩ := allRead_loadTargets hg files [root.id] root.references.edges
  obtain ⟨hlast, hall⟩ := allRead_gather files (files.files.length + g.entries.length) hnext hown
    fun d hd => hfound d (List.mem_reverse.mp hd)
  refine ⟨hlast, fun d hd => ?_⟩
  rcases List.mem_cons.mp hd with rfl | hd
  · exact hroot
  · exact hall d (List.mem_of_mem_drop hd)

theorem isRead_ofDocument (hg : g.IsRead) (files : FileSystem) (id : DocumentId) :
    (ofDocument files g id).2.IsRead := by
  obtain ⟨hload, hread⟩ := hg.load files id
  rw [ofDocument]
  cases hanswer : g.load files id with
  | mk answer next =>
    rw [hanswer] at hload hread
    cases answer with
    | error e => exact hload
    | ok root => exact (allRead_ofLoaded hload files (hread root rfl)).1

end View

/-! ### Sessions -/

namespace Session

variable {s : Session}

theorem isRead_step (hs : s.graph.IsRead) (op : Operation) : (s.step op).graph.IsRead := by
  cases op with
  | load p => exact (hs.load s.files p).1
  | loadParsed p => exact (hs.loadParsed s.files p).1
  | get p => exact hs
  | follow id p => exact hs.follow s.files id p
  | view id => exact View.isRead_ofDocument hs s.files id
  | insert p text => exact hs

/-- **Every document of a session is what its content reads as**, in every base directory. -/
theorem From.isRead {base : FilePath} (hs : s.From base) : s.graph.IsRead := by
  obtain ⟨files, ops, rfl⟩ := hs
  have hrun : ∀ (ops : List Operation) (s : Session), s.graph.IsRead → (s.run ops).graph.IsRead := by
    intro ops
    induction ops with
    | nil => exact fun s hs => hs
    | cons op ops ih => exact fun s hs => ih (s.step op) (isRead_step hs op)
  exact hrun ops _ (Graph.isRead_empty base)

end Session

end ApiLint
