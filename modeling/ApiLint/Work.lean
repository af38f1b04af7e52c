import ApiLint.View

/-!
# Work on a graph that is shared

Several workers may load and check documents at a time, and they share one graph.  `Work` is what one of them has to do.
It is cut into actions: an action is made in one go, and from one action to the next the others may do theirs.  Asking for
a document is one action, for nobody gets hold of the document before it is read.  Resolving its references is one action
for each of them, and one at either end: the first worker that needs the references takes it on to resolve them, and
others have to wait until they are there.
-/

namespace ApiLint

/-- What the workers have in common: the graph, and the ids of the documents whose references one of them is resolving. -/
structure Shared where
  graph : Graph
  resolving : List DocumentId

def Shared.references? (s : Shared) (id : DocumentId) : Option ReferenceTable :=
  (s.graph.entry? id).bind Entry.references

/-- An action has to wait until it is `ready`.  What comes next may depend on what it comes upon. -/
inductive Work (α : Type) where
  | done (a : α)
  | act (ready : Shared → Bool) (effect : Shared → Shared) (next : Shared → Work α)

namespace Work

variable {α β : Type}

def bind : Work α → (α → Work β) → Work β
  | done a, k => k a
  | act ready effect next, k => act ready effect fun s => (next s).bind k

instance : Monad Work where
  pure := done
  bind := bind

/-- One action, which never has to wait. -/
def ask (f : Graph → α × Graph) : Work α :=
  act (fun _ => true) (fun s => { s with graph := (f s.graph).2 }) fun s => done (f s.graph).1

/-- Does something for each element in order. -/
def each (f : α → Work β) : List α → Work (List β)
  | [] => pure []
  | x :: xs => do
    let y ← f x
    let ys ← each f xs
    pure (y :: ys)

/-- What comes of work that nobody interferes with, and `none` if it waits for ever. -/
def alone : Work α → Shared → Option (α × Shared)
  | done a, s => some (a, s)
  | act ready effect next, s => if ready s then (next s).alone (effect s) else none

/-! ### Loading documents -/

/-- Sorts references into edges and errors, in order. -/
def resolveAll (files : FileSystem) (source : Document) : List (Path × String) → Work ReferenceTable
  | [] => pure ⟨[], []⟩
  | (origin, reference) :: rest => do
    let found ← ask fun g => g.locate files source origin reference
    let table ← resolveAll files source rest
    pure (match found with
      | .ok target => ⟨⟨origin, reference, target⟩ :: table.edges, table.unresolved⟩
      | .error e => ⟨table.edges, e :: table.unresolved⟩)

/-- Records the references of a document, for which others may be waiting. -/
def record (id : DocumentId) (table : ReferenceTable) : Work ReferenceTable :=
  act (fun _ => true) (fun s => ⟨s.graph.setReferences id table, s.resolving.filter (· ≠ id)⟩) fun _ => done table

/-- Takes the references of a document, or resolves them if nobody does. -/
def references (files : FileSystem) (d : Document) : Work ReferenceTable :=
  act (fun s => (s.references? d.id).isSome || !s.resolving.contains d.id)
    (fun s => if (s.references? d.id).isSome then s else { s with resolving := d.id :: s.resolving })
    fun s => match s.references? d.id with
      | some table => pure table
      | none => resolveAll files d d.value.references >>= record d.id

def load (files : FileSystem) (p : FilePath) : Work (Except LoadError Loaded) := do
  match ← ask fun g => g.loadParsed files p with
  | .error e => pure (.error e)
  | .ok d => do
    let table ← references files d
    pure (.ok ⟨d, table⟩)

/-! ### Making views -/

def loadTargets (files : FileSystem) (present : List DocumentId) : List Edge → Work (List Loaded)
  | [] => pure []
  | e :: rest =>
    if e.target.document ∈ present then loadTargets files present rest
    else do
      let outcome ← load files e.target.document
      let ds ← loadTargets files present rest
      match outcome with
      | .error _ => pure ds
      | .ok d => pure (d :: ds)

def gather (files : FileSystem) (room : Nat) (gathered pending : List Loaded) : Work (List Loaded) :=
  match pending with
  | [] => pure gathered
  | d :: pending =>
    if d.id ∈ gathered.map Loaded.id then gather files room gathered pending
    else
      match room with
      | 0 => pure gathered
      | room + 1 => do
        let found ← loadTargets files (d.id :: gathered.map Loaded.id) d.references.edges
        gather files room (gathered ++ [d]) (found.reverse ++ pending)
termination_by (room, pending.length)

def view (files : FileSystem) (root : Loaded) : Work View := do
  let room ← ask fun g => (files.files.length + g.entries.length, g)
  let found ← loadTargets files [root.id] root.references.edges
  let documents ← gather files room [root] found.reverse
  pure ⟨root, documents.drop 1⟩

end Work

end ApiLint
