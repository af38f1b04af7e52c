import ApiLint.Lint
import ApiLint.Pool
import Mathlib.Logic.Relation

/-!
# Runs of several workers

In a run one pool loads the documents and then checks those that were loaded, each once.  The checks of one document are
done one after another.  `Linter.Step` lists what may come next in a run; `Linter.run` is what comes of it when the caller
does all of it.
-/

namespace ApiLint

/-- How the calls of rule functions are cut into actions. -/
structure Calls where
  work : RuleFunction → Context → Value → Node → Work (List (Except Fault Finding))
  /-- A call that nobody interferes with yields what the function yields. -/
  alone (f : RuleFunction) (c : Context) (options : Value) (n : Node) (g : Graph) :
    (work f c options n).alone ⟨g, []⟩ = some ((f.call c options n g).1, ⟨(f.call c options n g).2, []⟩)

def Calls.inOne : Calls where
  work f c options n := .ask (f.call c options n)
  alone _ _ _ _ _ := rfl

namespace Linter

/-! ### What is to be done -/

def targetWork (l : Linter) (files : FileSystem) (calls : Calls) (v : View) (r : Rule) (target : Query.Match) :
    Work (List Diagnostic) := do
  let context : Context := ⟨files, v, treeFor v r, target.path⟩
  let options := r.mergedOptions (l.settings.options r.name)
  let items ← calls.work r.function context options target.node
  pure (l.diagnosticsOf v r target.path items)

def ruleWork (l : Linter) (files : FileSystem) (calls : Calls) (v : View) (r : Rule) : Work (List Diagnostic) := do
  let found ← Work.each (l.targetWork files calls v r) (r.targets (treeFor v r))
  pure found.flatten

def documentWork (l : Linter) (files : FileSystem) (calls : Calls) (d : Loaded) : Work (List Diagnostic) := do
  let v ← Work.view files d
  let found ← Work.each (l.ruleWork files calls v) l.activeRules
  pure found.flatten

def checkWork (l : Linter) (files : FileSystem) (calls : Calls) (p : FilePath) :
    Work (Except LoadError (List Diagnostic)) := do
  match ← Work.load files p with
  | .error e => pure (.error e)
  | .ok d => do
    let found ← l.documentWork files calls d
    pure (.ok found)

/-! ### Runs -/

inductive Stage where
  | loading (jobs : List (Job (List (Except LoadError Loaded))))
  | checking (outcomes : List (Except LoadError Loaded)) (jobs : List (Job (List (List Diagnostic))))
  | reported (report : Report)

def begin (files : FileSystem) (pool : Pool) (paths : List FilePath) : Stage :=
  .loading (pool.jobs (Work.load files) paths)

inductive Step (l : Linter) (files : FileSystem) (calls : Calls) (pool : Pool) :
    Stage × Shared → Stage × Shared → Prop
  | load {jobs jobs' : List (Job (List (Except LoadError Loaded)))} {s s' : Shared} :
    pool.Step (jobs, s) (jobs', s') → Step l files calls pool (.loading jobs, s) (.loading jobs', s')
  | loaded {results : List (List (Except LoadError Loaded))} {s : Shared} :
    Step l files calls pool (.loading (results.map .finished), s)
      (.checking results.flatten (pool.jobs (l.documentWork files calls) (loadedOnce results.flatten)), s)
  | check {outcomes : List (Except LoadError Loaded)} {jobs jobs' : List (Job (List (List Diagnostic)))} {s s' : Shared} :
    pool.Step (jobs, s) (jobs', s') →
    Step l files calls pool (.checking outcomes jobs, s) (.checking outcomes jobs', s')
  | checked {outcomes : List (Except LoadError Loaded)} {results : List (List (List Diagnostic))} {s : Shared} :
    Step l files calls pool (.checking outcomes (results.map .finished), s)
      (.reported (reportOf s.graph outcomes results.flatten), s)

/-- The pools that a run may have, whatever the machine offers. -/
def MayHave (l : Linter) (pool : Pool) : Prop :=
  ∃ available, pool.Made (l.settings.workerCount available)

/-- A run over some paths may end with the report, and leave `s'` behind. -/
def Runs (l : Linter) (files : FileSystem) (calls : Calls) (s : Shared) (paths : List FilePath) (report : Report)
    (s' : Shared) : Prop :=
  ∃ pool, l.MayHave pool ∧
    Relation.ReflTransGen (l.Step files calls pool) (begin files pool paths, s) (.reported report, s')

/-- A check of a single document may end with the answer, and leave `s'` behind. -/
def Checks (l : Linter) (files : FileSystem) (calls : Calls) (s : Shared) (p : FilePath)
    (answer : Except LoadError (List Diagnostic)) (s' : Shared) : Prop :=
  Relation.ReflTransGen Pool.caller.Step ([.waiting (l.checkWork files calls p)], s) ([.finished answer], s')

/-- What runs and checks may have left behind, one after another, since nothing was loaded. -/
inductive Leaves (l : Linter) (files : FileSystem) (calls : Calls) (base : FilePath) : Shared → Prop
  | fresh : Leaves l files calls base ⟨.empty base, []⟩
  | run {s s' : Shared} {paths : List FilePath} {report : Report} : Leaves l files calls base s →
    l.Runs files calls s paths report s' → Leaves l files calls base s'
  | check {s s' : Shared} {p : FilePath} {answer : Except LoadError (List Diagnostic)} : Leaves l files calls base s →
    l.Checks files calls s p answer s' → Leaves l files calls base s'

end Linter

end ApiLint
