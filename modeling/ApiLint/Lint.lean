import ApiLint.Record
import ApiLint.Settings

/-!
# Checking documents

A `Linter` is a set of rules under settings.  On a document it calls every rule that applies for each of
the rule's targets, in order, and a call that goes wrong costs nothing but itself: its findings so far
stay, and a diagnostic tells of the fault.

`Linter.run` loads documents, checks each once, and puts together a `Report`.
-/

namespace ApiLint

/-- Does something for each element in order, handing the graph on. -/
def Graph.each {α β : Type} (f : α → Graph → β × Graph) : List α → Graph → List β × Graph
  | [], g => ([], g)
  | x :: xs, g =>
    let (y, g) := f x g
    let (ys, g) := each f xs g
    (y :: ys, g)

/-- The nodes that a rule is called for, in a tree: what its queries lead to, or the root if it has none,
and from there what its field leads to. -/
def Rule.targets (r : Rule) (tree : Node) : List Query.Match :=
  let sections :=
    if r.given.isEmpty then [⟨[], tree⟩] else r.given.flatMap fun q => q.run tree
  match r.field with
  | none => sections
  | some field =>
    sections.flatMap fun s => (field.run s.node).map fun m => ⟨s.path ++ m.path, m.node⟩

structure Linter where
  rules : RuleSet
  settings : Settings

structure Failure where
  document : DocumentId
  message : String
  deriving DecidableEq, Repr

structure Report where
  records : List Record
  failures : List Failure
  warnings : List ReferenceError
  checked : Nat

namespace Report

def reaches (r : Report) (threshold : Severity) : Bool :=
  r.records.any fun record => record.severity.reaches threshold

/-- Whether the run failed: by a record of at least the given severity, or by a document that could not
be checked. -/
def isFailure (r : Report) (threshold : Severity) : Bool :=
  r.reaches threshold || !r.failures.isEmpty

def count (r : Report) (s : Severity) : Nat :=
  (r.records.filter fun record => record.severity = s).length

end Report

namespace Linter

/-- The rules that apply: those for the kind of description that are not disabled. -/
def activeRules (l : Linter) : List Rule :=
  l.rules.rules.filter fun r => r.types.contains l.settings.type && l.settings.isEnabled r.name

def severityOf (l : Linter) (r : Rule) : Severity :=
  (l.settings.severity? r.name).getD r.severity

def treeFor (v : View) (r : Rule) : Node :=
  if r.resolved then v.node else .raw v.root.document.value

/-- What is said of a call that yielded `items`. -/
def diagnosticsOf (l : Linter) (v : View) (r : Rule) (target : Path) (items : List (Except Fault Finding)) :
    List Diagnostic :=
  (untilFault items).1.map (.ofFinding r (l.severityOf r) v.id) ++
    ((untilFault items).2.map (.ofFault r v.id target)).toList

def checkTarget (l : Linter) (files : FileSystem) (v : View) (r : Rule) (target : Query.Match)
    (g : Graph) : List Diagnostic × Graph :=
  let context : Context := ⟨files, v, treeFor v r, target.path⟩
  let options := r.mergedOptions (l.settings.options r.name)
  let (items, g) := r.function.call context options target.node g
  (l.diagnosticsOf v r target.path items, g)

def checkRule (l : Linter) (files : FileSystem) (v : View) (r : Rule) (g : Graph) :
    List Diagnostic × Graph :=
  let (found, g) := Graph.each (l.checkTarget files v r) (r.targets (treeFor v r)) g
  (found.flatten, g)

def checkLoaded (l : Linter) (files : FileSystem) (d : Loaded) (g : Graph) : List Diagnostic × Graph :=
  let (v, g) := View.ofLoaded files g d
  let (found, g) := Graph.each (l.checkRule files v) l.activeRules g
  (found.flatten, g)

def check (l : Linter) (files : FileSystem) (g : Graph) (p : FilePath) :
    Except LoadError (List Diagnostic) × Graph :=
  match g.load files p with
  | (.error e, g) => (.error e, g)
  | (.ok d, g) =>
    let (found, g) := l.checkLoaded files d g
    (.ok found, g)

/-- The documents that were loaded, each once. -/
def loadedOnce : List (Except LoadError Loaded) → List Loaded
  | [] => []
  | .error _ :: rest => loadedOnce rest
  | .ok d :: rest => d :: (loadedOnce rest).filter fun e => e.id ≠ d.id

def failedOnce : List (Except LoadError Loaded) → List Failure
  | [] => []
  | .ok _ :: rest => failedOnce rest
  | .error e :: rest =>
    let failure : Failure := ⟨e.document, e.message⟩
    failure :: (failedOnce rest).filter fun f => f ≠ failure

def reportOf (g : Graph) (outcomes : List (Except LoadError Loaded)) (found : List (List Diagnostic)) : Report :=
  ⟨found.flatten.map (.ofDiagnostic g), failedOnce outcomes, g.unresolved, (loadedOnce outcomes).length⟩

/-- Loads the documents at some paths and checks each once, as a single worker does it. -/
def run (l : Linter) (files : FileSystem) (g : Graph) (paths : List FilePath) : Report × Graph :=
  let (outcomes, g) := Graph.each (fun p g => g.load files p) paths g
  let (found, g) := Graph.each (l.checkLoaded files) (loadedOnce outcomes) g
  (reportOf g outcomes found, g)

end Linter

end ApiLint
