import ApiLint.Document
import ApiLint.Reference

/-!
# Loaded documents

A `Graph` is what is known of the documents that were asked for so far: one entry for every canonical
path, in the order of the first request, with the document or the reason why there is none.  An entry
is made once and never changes, except that a document gets its table of references when it is first
loaded for its references.  Files may change between two requests: what was loaded stays as it was.

`Graph.load` loads a document and resolves its references, for which it reads the documents they name,
but not the references of those.  `Graph.follow` follows a chain of references to its end.
-/

namespace ApiLint

/-- Files by path.  Paths with the same components name the same file. -/
structure FileSystem where
  files : List (FilePath × String)
  absent : FilePath → String

namespace FileSystem

def read (files : FileSystem) (p : FilePath) : Except String String :=
  match files.files.find? fun f => f.1.components = p.components with
  | some f => .ok f.2
  | none => .error (files.absent p)

def insert (files : FileSystem) (p : FilePath) (text : String) : FileSystem :=
  { files with files := (p, text) :: files.files.filter fun f => f.1.components ≠ p.components }

def size (files : FileSystem) : Nat :=
  files.files.foldr (fun f n => f.2.utf8ByteSize + n) 0

end FileSystem

/-- Why a document cannot be had. -/
inductive LoadError where
  | unreadable (document : DocumentId) (message : String)
  | unparsable (document : DocumentId) (cause : Json.ReadError)
  | notLoaded (document : DocumentId)
  deriving DecidableEq, Repr

namespace LoadError

def document : LoadError → DocumentId
  | unreadable d _ | unparsable d _ | notLoaded d => d

def message : LoadError → String
  | unreadable d message => s!"failed to read {d.text}: {message}"
  | unparsable d cause => s!"failed to parse {d.text}: {cause.message}"
  | notLoaded d => s!"document {d.text} has not been loaded"

end LoadError

/-- A document with the table of its references. -/
structure Loaded where
  document : Document
  references : ReferenceTable

abbrev Loaded.id (l : Loaded) : DocumentId := l.document.id

inductive Resolution where
  | resolved (document : Document) (path : Path)
  | cycle (target : Location)
  | unresolved (error : ReferenceError)

def Resolution.value? : Resolution → Option Value
  | resolved d p => d.valueAt? p
  | _ => none

/-- Whether a chain came back to a node it had visited. -/
def Resolution.isCycle : Resolution → Bool
  | cycle _ => true
  | _ => false

/-- What came of the first request for a path. -/
structure Entry where
  id : DocumentId
  outcome : Except LoadError Document
  references : Option ReferenceTable

structure Graph where
  base : FilePath
  entries : List Entry
  reads : Nat

namespace Graph

def empty (base : FilePath) : Graph :=
  ⟨base, [], 0⟩

def canonical (g : Graph) (p : FilePath) : DocumentId :=
  FilePath.canonical g.base p

/-- The id of the document that `source` calls `file`. -/
def relative (g : Graph) (source : DocumentId) (file : FilePath) : DocumentId :=
  g.canonical (source.directory.join file)

def entry? (g : Graph) (id : DocumentId) : Option Entry :=
  g.entries.find? fun e => e.id = id

def fetch (files : FileSystem) (id : DocumentId) : Except LoadError Document :=
  match files.read id with
  | .error message => .error (.unreadable id message)
  | .ok content =>
    match Document.read id content with
    | .error cause => .error (.unparsable id cause)
    | .ok d => .ok d

/-- Asks for the document at a path, without its references. -/
def loadParsed (files : FileSystem) (g : Graph) (p : FilePath) : Except LoadError Document × Graph :=
  let id := g.canonical p
  match g.entry? id with
  | some e => (e.outcome, g)
  | none =>
    let outcome := fetch files id
    (outcome, { g with entries := g.entries ++ [⟨id, outcome, none⟩], reads := g.reads + 1 })

/-- The node that a reference written at `origin` designates. -/
def locate (files : FileSystem) (g : Graph) (source : Document) (origin : Path) (reference : String) :
    Except ReferenceError Location × Graph :=
  let refuse (problem : ReferenceProblem) : Except ReferenceError Location :=
    .error ⟨source.id, origin, reference, problem⟩
  let within (target : Document) (tokens : List String) : Except ReferenceError Location :=
    match target.value.follow? tokens with
    | none => refuse .missingTarget
    | some p => .ok ⟨target.id, p⟩
  match Reference.ofText? reference with
  | none => (refuse .malformed, g)
  | some r =>
    if r.file.isEmpty then (within source r.tokens, g)
    else
      let id := g.relative source.id ⟨r.file⟩
      match g.loadParsed files id with
      | (.error e, g) => (refuse (.documentUnavailable id e.message), g)
      | (.ok target, g) => (within target r.tokens, g)

def resolveAll (files : FileSystem) (source : Document) :
    List (Path × String) → Graph → ReferenceTable × Graph
  | [], g => (⟨[], []⟩, g)
  | (origin, reference) :: rest, g =>
    let (found, g) := g.locate files source origin reference
    let (table, g) := resolveAll files source rest g
    match found with
    | .ok target => (⟨⟨origin, reference, target⟩ :: table.edges, table.unresolved⟩, g)
    | .error e => (⟨table.edges, e :: table.unresolved⟩, g)

def setReferences (g : Graph) (id : DocumentId) (table : ReferenceTable) : Graph :=
  { g with entries := g.entries.map fun e =>
      if e.id = id then { e with references := some table } else e }

def load (files : FileSystem) (g : Graph) (p : FilePath) : Except LoadError Loaded × Graph :=
  match g.loadParsed files p with
  | (.error e, g) => (.error e, g)
  | (.ok d, g) =>
    match (g.entry? d.id).bind Entry.references with
    | some table => (.ok ⟨d, table⟩, g)
    | none =>
      let (table, g) := resolveAll files d d.value.references g
      (.ok ⟨d, table⟩, g.setReferences d.id table)

/-- The document at a path, if it was asked for. -/
def get (g : Graph) (p : FilePath) : Except LoadError Document :=
  let id := g.canonical p
  match g.entry? id with
  | some e => e.outcome
  | none => .error (.notLoaded id)

def references? (g : Graph) (p : FilePath) : Option ReferenceTable :=
  (g.entry? (g.canonical p)).bind Entry.references

/-- The documents that were asked for and could be had, in the order of the first request. -/
def documents (g : Graph) : List Document :=
  g.entries.filterMap fun e => e.outcome.toOption

def unresolved (g : Graph) : List ReferenceError :=
  g.entries.flatMap fun e => (e.references.map ReferenceTable.unresolved).getD []

/-! ### Chains of references -/

/-- More than the number of nodes of all documents that a chain may come to: a node takes at least one
byte of its text. -/
def size (files : FileSystem) (g : Graph) : Nat :=
  g.documents.foldr (fun d n => d.content.utf8ByteSize + n) files.size + 1

/-- Follows edges from `p` in `source`, over at most `links` of them.  The nodes landed on so far are in
`visited`. -/
def followFrom (files : FileSystem) (links : Nat) (g : Graph) (visited : List Location)
    (source : Loaded) (p : Path) : Resolution × Graph :=
  match source.references.edge? p with
  | none =>
    match source.references.error? p with
    | some e => (.unresolved e, g)
    | none => (.resolved source.document p, g)
  | some e =>
    if e.target ∈ visited then (.cycle e.target, g)
    else
      match links with
      | 0 => (.cycle e.target, g)
      | links + 1 =>
        let visited := e.target :: visited
        if e.target.document = source.id then followFrom files links g visited source e.target.path
        else
          match g.load files e.target.document with
          | (.error cause, g) =>
            (.unresolved ⟨source.id, p, e.reference,
              .documentUnavailable e.target.document cause.message⟩, g)
          | (.ok next, g) => followFrom files links g visited next e.target.path

def followLoaded (files : FileSystem) (g : Graph) (source : Loaded) (p : Path) : Resolution × Graph :=
  followFrom files (g.size files) g [⟨source.id, p⟩] source p

def follow (files : FileSystem) (g : Graph) (id : DocumentId) (p : Path) :
    Except LoadError Resolution × Graph :=
  match g.load files id with
  | (.error e, g) => (.error e, g)
  | (.ok source, g) =>
    let (resolution, g) := g.followLoaded files source p
    (.ok resolution, g)

end Graph

end ApiLint
