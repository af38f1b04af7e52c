import ApiLint.Proofs.FirstOccurrences
import ApiLint.Proofs.View.Gathering

/-!
# Sessions

A `Session` is a graph and the files that it reads.  Operations are run on it one after another, and between
them files come and change.  `Session.Asks` says which ids the operations ask for, in order.

`Session.account_of_empty` is the account of every session that starts with an empty graph in an absolute base
directory.  A file is read for every id that is asked for, but only once, and the ids asked for are those that
an operation loads and those that the references of a loaded document name.  The first answer for an id is the
answer to all requests after it, under whatever spelling.  Documents stand in the order of their first
requests, and new ones are put behind them.
-/

namespace ApiLint

open ApiLint.Graph (Grows Loads enlist)

inductive Operation where
  | load (p : FilePath)
  | loadParsed (p : FilePath)
  | get (p : FilePath)
  | follow (id : DocumentId) (p : Path)
  | view (id : DocumentId)
  | insert (p : FilePath) (text : String)

def Operation.path? : Operation → Option FilePath
  | load p | loadParsed p => some p
  | follow id _ | view id => some id
  | get _ | insert _ _ => none

/-- A graph and the files that it reads. -/
structure Session where
  files : FileSystem
  graph : Graph

namespace Session

def step (s : Session) : Operation → Session
  | .load p => { s with graph := (s.graph.load s.files p).2 }
  | .loadParsed p => { s with graph := (s.graph.loadParsed s.files p).2 }
  | .get _ => s
  | .follow id p => { s with graph := (s.graph.follow s.files id p).2 }
  | .view id => { s with graph := (View.ofDocument s.files s.graph id).2 }
  | .insert p text => { s with files := s.files.insert p text }

def run (s : Session) (ops : List Operation) : Session :=
  ops.foldl step s

/-- The session has run some operations since it had an empty graph in the directory `base`. -/
def From (base : FilePath) (s : Session) : Prop :=
  ∃ files ops, s = run ⟨files, .empty base⟩ ops

/-- The ids that an operation asks for, in order.  A chain of references and a view are loaded one document
after another. -/
inductive StepAsks (s : Session) : Operation → List DocumentId → Prop
  | load (p : FilePath) : StepAsks s (.load p) (s.graph.requests s.files p)
  | loadParsed (p : FilePath) : StepAsks s (.loadParsed p) [s.graph.canonical p]
  | get (p : FilePath) : StepAsks s (.get p) []
  | follow {id : DocumentId} {p : Path} {asked : List DocumentId} :
    Loads s.files (s.graph.load s.files id).2 asked (s.step (.follow id p)).graph →
    StepAsks s (.follow id p) (s.graph.requests s.files id ++ asked)
  | view {id : DocumentId} {asked : List DocumentId} :
    Loads s.files (s.graph.load s.files id).2 asked (s.step (.view id)).graph →
    StepAsks s (.view id) (s.graph.requests s.files id ++ asked)
  | insert (p : FilePath) (text : String) : StepAsks s (.insert p text) []

inductive Asks : Session → List Operation → List DocumentId → Prop
  | nil (s : Session) : Asks s [] []
  | cons {s : Session} {op : Operation} {ops : List Operation} {asked rest : List DocumentId} :
    StepAsks s op asked → Asks (s.step op) ops rest → Asks s (op :: ops) (asked ++ rest)

/-- An operation loads the id, or a reference of a loaded document names it. -/
inductive Requested (s : Session) (ops : List Operation) : DocumentId → Prop
  | loaded {op : Operation} {p : FilePath} : op ∈ ops → op.path? = some p →
    Requested s ops (s.graph.canonical p)
  | named {id : DocumentId} : (s.run ops).graph.Names id → Requested s ops id

/-! ### One operation -/

section

variable {s : Session} {op : Operation} {ops : List Operation} {asked : List DocumentId} {g h : Graph}
  {files : FileSystem} {id : DocumentId} {p : FilePath}

theorem loads_follow (hg : g.Consistent) (files : FileSystem) (id : DocumentId) (p : Path) :
    ∃ asked, Loads files (g.load files id).2 asked (g.follow files id p).2 := by
  have hload := hg.loading files id
  rw [Graph.follow]
  cases hanswer : g.load files id with
  | mk answer next =>
    rw [hanswer] at hload
    cases answer with
    | error e => exact ⟨[], .nil next⟩
    | ok source =>
      exact Graph.loads_followFrom hload.consistent (hload.holds source rfl) _ _ p

theorem loads_ofDocument (hg : g.Consistent) (files : FileSystem) (id : DocumentId) :
    ∃ asked, Loads files (g.load files id).2 asked (View.ofDocument files g id).2 := by
  have hload := hg.loading files id
  rw [View.ofDocument]
  cases hanswer : g.load files id with
  | mk answer next =>
    rw [hanswer] at hload
    cases answer with
    | error e => exact ⟨[], .nil next⟩
    | ok root => exact (View.gathers_ofLoaded hload.consistent files (hload.holds root rfl)).1

structure Stepped (s : Session) (op : Operation) (asked : List DocumentId) : Prop
    extends Grows s.files s.graph (s.step op).graph where
  asks : StepAsks s op asked
  ids_eq : (s.step op).graph.ids = asked.foldl enlist s.graph.ids
  loaded : ∀ p, op.path? = some p → s.graph.canonical p ∈ asked
  known : ∀ id ∈ asked, id ∈ s.graph.ids ∨ (∃ p, op.path? = some p ∧ s.graph.canonical p = id) ∨
    (s.step op).graph.Names id

theorem Graph.canonical_mem_requests (files : FileSystem) (g : Graph) (p : FilePath) :
    g.canonical p ∈ g.requests files p := by
  rw [Graph.requests]
  split
  · exact List.mem_singleton_self _
  · exact List.mem_cons_self ..

/-- Loading a document, and further ones after it. -/
theorem stepped_of_loads (hs : s.graph.Consistent) (hp : op.path? = some p)
    (hloads : Loads s.files (s.graph.load s.files p).2 asked (s.step op).graph)
    (hasks : StepAsks s op (s.graph.requests s.files p ++ asked)) :
    Stepped s op (s.graph.requests s.files p ++ asked) := by
  have hload := hs.loading s.files p
  have hgrows := hloads.grows hload.consistent
  have hfirst : ∀ id ∈ s.graph.requests s.files p, id ∈ s.graph.ids ∨
      (∃ q, op.path? = some q ∧ s.graph.canonical q = id) ∨ (s.step op).graph.Names id := by
    intro id hid
    rcases hs.names_of_requests hid with rfl | hnamed
    · exact .inr (.inl ⟨p, hp, rfl⟩)
    · exact .inr (.inr (hnamed.extend hgrows.toExtends))
  refine ⟨hload.toGrows.trans hgrows, hasks, ?_, fun q hq => ?_, fun id hid => ?_⟩
  · rw [hloads.ids_eq hload.consistent, hload.ids_eq, List.foldl_append]
  · obtain rfl : p = q := Option.some.inj (hp.symm.trans hq)
    exact List.mem_append_left _ (Graph.canonical_mem_requests s.files s.graph p)
  · rcases List.mem_append.mp hid with hid | hid
    · exact hfirst id hid
    · rcases hloads.names_of_mem hload.consistent hid with hknown | hnamed
      · rw [hload.ids_eq, Graph.mem_foldl_enlist] at hknown
        exact hknown.elim .inl (hfirst id)
      · exact .inr (.inr hnamed)

theorem stepped (hs : s.graph.Consistent) (op : Operation) : ∃ asked, Stepped s op asked := by
  cases op with
  | load p =>
    have hloads : Loads s.files (s.graph.load s.files p).2 [] (s.step (.load p)).graph := .nil _
    refine ⟨_, stepped_of_loads hs rfl hloads ?_⟩
    rw [List.append_nil]
    exact .load p
  | loadParsed p =>
    have hasks := Graph.asks_loadParsed s.files s.graph p
    refine ⟨_, hasks.grows hs, .loadParsed p, hasks.ids_eq, fun q hq => ?_, fun id hid => ?_⟩
    · cases hq
      exact List.mem_singleton_self _
    · exact .inr (.inl ⟨p, rfl, (List.mem_singleton.mp hid).symm⟩)
  | get p =>
    exact ⟨_, .refl s.files hs, .get p, rfl, (fun q hq => nomatch hq), fun id hid => nomatch hid⟩
  | follow id p =>
    obtain ⟨asked, hloads⟩ := loads_follow hs s.files id p
    exact ⟨_, stepped_of_loads hs rfl hloads (.follow hloads)⟩
  | view id =>
    obtain ⟨asked, hloads⟩ := loads_ofDocument hs s.files id
    exact ⟨_, stepped_of_loads hs rfl hloads (.view hloads)⟩
  | insert p text =>
    exact ⟨_, .refl s.files hs, .insert p text, rfl, (fun q hq => nomatch hq), fun id hid => nomatch hid⟩

/-! ### A run of operations -/

structure Ran (s : Session) (ops : List Operation) (asked : List DocumentId) : Prop
    extends s.graph.Extends (s.run ops).graph where
  consistent : (s.run ops).graph.Consistent
  asks : Asks s ops asked
  ids_eq : (s.run ops).graph.ids = asked.foldl enlist s.graph.ids
  loaded : ∀ op ∈ ops, ∀ p, op.path? = some p → s.graph.canonical p ∈ asked
  known : ∀ id ∈ asked, id ∈ s.graph.ids ∨ Requested s ops id

theorem Requested.cons (hstep : s.graph.Extends (s.step op).graph) (hid : Requested (s.step op) ops id) :
    Requested s (op :: ops) id := by
  cases hid with
  | loaded hop hp =>
    rw [hstep.canonical]
    exact .loaded (List.mem_cons_of_mem op hop) hp
  | named hid => exact .named hid

theorem ran (hs : s.graph.Consistent) (ops : List Operation) : ∃ asked, Ran s ops asked := by
  induction ops generalizing s with
  | nil =>
    exact ⟨[], .refl s.graph, hs, .nil s, rfl, (fun op hop => nomatch hop), fun id hid => nomatch hid⟩
  | cons op ops ih =>
    obtain ⟨asked, hstep⟩ := stepped hs op
    obtain ⟨rest, hrest⟩ := ih hstep.consistent
    have hrun : s.run (op :: ops) = (s.step op).run ops := List.foldl_cons ..
    have hfirst : ∀ id ∈ asked, id ∈ s.graph.ids ∨ Requested s (op :: ops) id := by
      intro id hid
      rcases hstep.known id hid with hknown | ⟨p, hp, rfl⟩ | hnamed
      · exact .inl hknown
      · exact .inr (.loaded (List.mem_cons_self ..) hp)
      · exact .inr (.named (hnamed.extend hrest.toExtends))
    refine ⟨asked ++ rest, hstep.toExtends.trans hrest.toExtends, hrest.consistent,
      .cons hstep.asks hrest.asks, ?_, fun op' hop p hp => ?_, fun id hid => ?_⟩
    · rw [hrun, hrest.ids_eq, hstep.ids_eq, List.foldl_append]
    · rw [List.mem_append]
      rcases List.mem_cons.mp hop with rfl | hop
      · exact .inl (hstep.loaded p hp)
      · rw [← hstep.canonical]
        exact .inr (hrest.loaded op' hop p hp)
    · rcases List.mem_append.mp hid with hid | hid
      · exact hfirst id hid
      · rcases hrest.known id hid with hknown | hrequested
        · rw [hstep.ids_eq, Graph.mem_foldl_enlist] at hknown
          exact hknown.elim .inl (hfirst id)
        · exact .inr (hrequested.cons hstep.toExtends)

theorem From.consistent {base : FilePath} (hbase : base.isAbsolute = true) (hs : s.From base) :
    s.graph.Consistent := by
  obtain ⟨files, ops, rfl⟩ := hs
  obtain ⟨_, hran⟩ := ran (s := ⟨files, .empty base⟩) (Graph.consistent_empty hbase) ops
  exact hran.consistent

end

/-! ### The account -/

/-- What holds of a session that has run the operations `ops`, which asked for `asked`. -/
structure Account (start : Session) (ops : List Operation) (asked : List DocumentId) : Prop where
  asks : Asks start ops asked
  /-- What is asked for is what operations load and what references of loaded documents name. -/
  requested : ∀ id, id ∈ asked ↔ Requested start ops id
  /-- Every id is read once. -/
  reads : (start.run ops).graph.reads = asked.eraseDups.length
  /-- Documents stand in the order in which they were first asked for. -/
  documents : (start.run ops).graph.documents = asked.eraseDups.filterMap fun id =>
    ((start.run ops).graph.get id).toOption
  /-- Nothing is known of an id that was not asked for, and looking for it changes nothing. -/
  unknown : ∀ p, start.graph.canonical p ∉ asked →
    (start.run ops).graph.get p = .error (.notLoaded (start.graph.canonical p)) ∧
      (start.run ops).step (.get p) = start.run ops
  /-- Later documents are put behind those that are there. -/
  grows : ∀ more, (start.run ops).graph.documents <+: (start.run (ops ++ more)).graph.documents
  /-- What is answered later for an id that was asked for, under any spelling, is what is answered now. -/
  settled : ∀ more p q, start.graph.canonical p ∈ asked → start.graph.canonical q = start.graph.canonical p →
    let later := start.run (ops ++ more)
    later.graph.get q = (start.run ops).graph.get p ∧
      (later.graph.loadParsed later.files q).1 = (start.run ops).graph.get p ∧
      (later.graph.load later.files q).1.map Loaded.document = (start.run ops).graph.get p

theorem foldl_enlist_nil (asked : List DocumentId) : asked.foldl enlist [] = asked.eraseDups :=
  foldl_unless_mem_nil asked

theorem run_append (s : Session) (ops more : List Operation) :
    s.run (ops ++ more) = (s.run ops).run more :=
  List.foldl_append ..

theorem Ran.account {start : Session} {ops : List Operation} {asked : List DocumentId}
    (h : Ran start ops asked) (hnew : start.graph.ids = []) : Account start ops asked := by
  have hids : (start.run ops).graph.ids = asked.eraseDups := by
    rw [h.ids_eq, hnew, foldl_enlist_nil]
  have hmem : ∀ id, id ∈ (start.run ops).graph.ids ↔ id ∈ asked := by
    intro id
    rw [hids, List.mem_eraseDups]
  have hcanonical := h.toExtends.canonical
  have hlater : ∀ more, (start.run ops).graph.Extends (start.run (ops ++ more)).graph := by
    intro more
    obtain ⟨_, hmore⟩ := ran h.consistent more
    rw [run_append]
    exact hmore.toExtends
  refine ⟨h.asks, fun id => ⟨fun hid => ?_, fun hid => ?_⟩, ?_, ?_, fun p hp => ⟨?_, rfl⟩,
    fun more => (hlater more).documents, fun more p q hp hq => ?_⟩
  · rcases h.known id hid with hold | hrequested
    · rw [hnew] at hold
      cases hold
    · exact hrequested
  · cases hid with
    | loaded hop hp => exact h.loaded _ hop _ hp
    | named hnamed =>
      obtain ⟨l, hl, htarget⟩ := hnamed
      exact (hmem id).mp ((h.consistent.table_eq hl).1 id htarget)
  · rw [h.consistent.reads, hids]
  · rw [h.consistent.documents_eq, hids]
  · rw [← hcanonical]
    refine Graph.get_of_not_mem fun hid => hp ?_
    rw [← hcanonical]
    exact (hmem _).mp hid
  · obtain ⟨o, ho⟩ := Graph.mem_ids_iff.mp ((hmem _).mpr hp)
    have hnow : (start.run ops).graph.get p = o := by
      refine Graph.get_of_outcome? ?_
      rw [hcanonical]
      exact ho
    have hthen := (hlater more).outcome? ho
    rw [← hq, ← hcanonical, ← (hlater more).canonical] at hthen
    rw [hnow]
    refine ⟨Graph.get_of_outcome? hthen, ?_, ?_⟩
    · rw [Graph.loadParsed_of_some hthen]
    · rw [Graph.map_load, Graph.loadParsed_of_some hthen]

/-- **The account of every session.** -/
theorem account_of_empty {base : FilePath} (hbase : base.isAbsolute = true) (files : FileSystem)
    (ops : List Operation) : ∃ asked, Account ⟨files, .empty base⟩ ops asked := by
  obtain ⟨asked, hran⟩ := ran (s := ⟨files, .empty base⟩) (Graph.consistent_empty hbase) ops
  exact ⟨asked, hran.account rfl⟩

/-- A file that comes too late changes nothing: two files were asked for, and one is missing for good. -/
theorem account_of_late_file :
    (⟨"/"⟩ : FilePath).isAbsolute = true ∧ ∃ asked,
      Account ⟨⟨[(⟨"/a.json"⟩, "\x7b\"$ref\": \"b.json\"\x7d")], fun _ => "no such file"⟩, .empty ⟨"/"⟩⟩
        [.load ⟨"a.json"⟩, .insert ⟨"/b.json"⟩ "1", .load ⟨"./b.json"⟩] asked ∧
        asked.eraseDups.length = 2 := by
  have hbase : (⟨"/"⟩ : FilePath).isAbsolute = true := by decide +kernel
  obtain ⟨asked, h⟩ := account_of_empty hbase
    ⟨[(⟨"/a.json"⟩, "\x7b\"$ref\": \"b.json\"\x7d")], fun _ => "no such file"⟩
    [.load ⟨"a.json"⟩, .insert ⟨"/b.json"⟩ "1", .load ⟨"./b.json"⟩]
  refine ⟨hbase, asked, h, ?_⟩
  rw [← h.reads]
  decide +kernel

end Session

end ApiLint
