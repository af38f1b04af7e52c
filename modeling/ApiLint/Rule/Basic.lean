import ApiLint.ApiType
import ApiLint.Model
import ApiLint.Node
import ApiLint.Query.Eval
import ApiLint.Query.Reader
import ApiLint.Severity

/-!
# Rules

A rule says where it looks and what it checks there.  Its queries pick targets in the tree as written or
in the view, and its function is called for each target.  A function either returns all findings at once
or yields them one by one; a fault ends one call, and what was yielded before it counts.

`RuleDraft.build` compiles the queries of a rule.  A `RuleSet` keeps rules by name, in order.
-/

namespace ApiLint

structure Finding where
  message : String
  location : Path
  deriving DecidableEq, Repr

/-- Why a call of a rule function ended early.  A crash carries its text, if it is one. -/
inductive Fault where
  | load (cause : LoadError)
  | query (cause : Query.ReadError)
  | message (text : String)
  | crash (text : Option String)
  deriving DecidableEq, Repr

def Fault.text : Fault → String
  | load cause => cause.message
  | query cause => cause.message
  | message text => text
  | crash text => "rule panicked: " ++ text.getD "unknown panic"

/-- What a rule function may consult besides the node it is called for: the files, the view of the
document, the root of the tree its queries ran on, and the path of the node in that tree. -/
structure Context where
  files : FileSystem
  view : View
  tree : Node
  location : Path

namespace Context

def document (c : Context) : DocumentId :=
  c.view.id

/-- The path of a node below the one the function is called for. -/
def pathTo (c : Context) (p : Path) : Path :=
  c.location ++ p

end Context

/-- What a rule checks at a node.  A call may load documents, hence the graph. -/
inductive RuleFunction where
  | eager (check : Context → Node → Graph → Except Fault (List Finding) × Graph)
  | streaming (check : Context → Value → Node → Graph → List (Except Fault Finding) × Graph)

namespace RuleFunction

/-- Whether findings are yielded one by one. -/
def isStreaming : RuleFunction → Bool
  | eager _ => false
  | streaming _ => true

def call (f : RuleFunction) (c : Context) (options : Value) (n : Node) (g : Graph) :
    List (Except Fault Finding) × Graph :=
  match f with
  | eager check =>
    match check c n g with
    | (.ok findings, g) => (findings.map .ok, g)
    | (.error fault, g) => ([.error fault], g)
  | streaming check => check c options n g

end RuleFunction

/-- The findings in front of the first fault, and that fault. -/
def untilFault : List (Except Fault Finding) → List Finding × Option Fault
  | [] => ([], none)
  | .ok f :: rest => (f :: (untilFault rest).1, (untilFault rest).2)
  | .error fault :: _ => ([], some fault)

structure Rule where
  id : String
  name : String
  description : String
  severity : Severity
  category : String
  types : ApiTypes
  resolved : Bool
  given : List Query
  field : Option Query
  options : Value
  function : RuleFunction

namespace Rule

/-- The options with others put over them: member by member if both are objects, and otherwise the others
count, unless there are none. -/
def mergedOptions (r : Rule) (others : Value) : Value :=
  match r.options, others with
  | .object own, .object members => .object (members.foldl (fun ms m => assign m.1 m.2 ms) own)
  | own, .null => own
  | _, others => others

end Rule

/-- A rule whose queries are not compiled yet. -/
structure RuleDraft where
  id : String
  name : String
  description : String := ""
  severity : Severity := .warning
  category : String := "SDKViolation"
  types : ApiTypes := .all
  resolved : Bool := false
  given : List String := []
  field : Option String := none
  options : Value := .null
  function : Option RuleFunction := none

inductive DefinitionProblem where
  | query (cause : Query.ReadError)
  | noFunction
  deriving DecidableEq, Repr

/-- Why a draft is not a rule. -/
structure DefinitionError where
  rule : String
  problem : DefinitionProblem
  deriving DecidableEq, Repr

def DefinitionError.message (e : DefinitionError) : String :=
  match e.problem with
  | .query cause => s!"rule {e.rule}: {cause.message}"
  | .noFunction => s!"rule {e.rule} has no function"

namespace RuleDraft

def compile (d : RuleDraft) (text : String) : Except DefinitionError Query :=
  (Query.read text).mapError fun e => ⟨d.name, .query e⟩

/-- Compiles the queries, the field's last, and checks that there is a function. -/
def build (d : RuleDraft) : Except DefinitionError Rule := do
  let given ← d.given.mapM d.compile
  let field ← d.field.mapM d.compile
  match d.function with
  | none => throw ⟨d.name, .noFunction⟩
  | some function =>
    return ⟨d.id, d.name, d.description, d.severity, d.category, d.types, d.resolved, given, field,
      d.options, function⟩

end RuleDraft

/-! ### Sets of rules -/

structure RuleSet where
  rules : List Rule

namespace RuleSet

def empty : RuleSet := ⟨[]⟩

/-- Puts a rule in the place of the one with its name, or at the end. -/
def insertInto (r : Rule) : List Rule → List Rule
  | [] => [r]
  | s :: rest => if s.name = r.name then r :: rest else s :: insertInto r rest

def insert (s : RuleSet) (r : Rule) : RuleSet :=
  ⟨insertInto r s.rules⟩

/-- The rules of a list, the last of each name. -/
def ofList (rs : List Rule) : RuleSet :=
  rs.foldl insert empty

def get? (s : RuleSet) (name : String) : Option Rule :=
  s.rules.find? fun r => r.name = name

def retain (s : RuleSet) (names : List String) : RuleSet :=
  ⟨s.rules.filter fun r => names.contains r.name⟩

end RuleSet

end ApiLint
