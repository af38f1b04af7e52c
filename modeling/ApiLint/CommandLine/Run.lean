import ApiLint.CommandLine.Output
import ApiLint.Discovery
import ApiLint.Rule.BuiltIn
import ApiLint.Settings.Reader
import ApiLint.Text.Blank

/-!
# Running commands

The `Outcome` of a command in an environment is what it prints, the status it exits with, and the disk
afterwards.

The settings of a check come from the file that was asked for; or else from a file in the directory of
the first path; or else from the caller's own file; or else they are the default ones.
-/

namespace ApiLint

/-- What a command did.  The documents that it asked for are listed, read or not. -/
structure Outcome where
  status : Nat
  output : String
  fault : Option String
  disk : Disk
  requested : List DocumentId

namespace Environment

def done (e : Environment) (output : String) : Outcome :=
  ⟨0, output, none, e.disk, []⟩

def refuse (e : Environment) (reason : String) : Outcome :=
  ⟨1, "", some s!"Error: {reason}", e.disk, []⟩

/-! ### Settings -/

/-- The names of a settings file in the directory of a project, the first one found counting. -/
def projectNames : List String := ["openapi-lint.toml", ".openapi-lint.toml"]

/-- The directory that belongs to the paths of a check: the first of them, or what it lies in if it is
a file. -/
def projectDirectory (e : Environment) (paths : List FilePath) : FilePath :=
  match paths with
  | [] => ⟨"."⟩
  | p :: _ => if e.isFile p then p.parent?.getD ⟨"."⟩ else p

def ownSettings? (e : Environment) : Option FilePath :=
  let directory := e.settingsDirectory.or (e.home.map fun home => home.join ⟨".openapi-lint"⟩)
  directory.map fun d => d.join ⟨"config.toml"⟩

def settingsFile? (e : Environment) (asked : Option FilePath) (paths : List FilePath) :
    Option FilePath :=
  let inProject := projectNames.map fun name => (e.projectDirectory paths).join ⟨name⟩
  asked.or ((inProject ++ e.ownSettings?.toList).find? e.isFile)

def settings (e : Environment) (asked : Option FilePath) (paths : List FilePath) :
    Except FilePath Settings :=
  match e.settingsFile? asked paths with
  | none => .ok .default
  | some file =>
    match (e.read? file).bind Settings.read with
    | some s => .ok s
    | none => .error file

/-! ### Checks -/

/-- The rules among `s` that a text lists by name or by id, commas between them. -/
def selected (s : RuleSet) (text : String) : RuleSet :=
  let wanted := (text.toList.splitOn ',').map fun piece => String.ofList (trimBlanks piece)
  s.retain (wanted.filterMap fun w =>
    (s.rules.find? fun r => r.name = w || r.id = w).map Rule.name)

def check (e : Environment) (asked : Option FilePath) (request : CheckRequest) : Outcome :=
  match e.settings asked request.paths, RuleSet.builtIn with
  | .error file, _ => e.refuse s!"Failed to load config: {file.text}"
  | _, .error _ => e.refuse "Failed to build built-in rules"
  | .ok settings, .ok all =>
    let linter : Linter := {
      rules := (request.rules.map (selected all)).getD all
      settings := { settings with type := request.type.getD settings.type } }
    match e.documents request.excluded request.paths with
    | .error path => e.refuse s!"Failed to walk {path.text}"
    | .ok documents =>
      let (report, graph) := linter.run e.disk.fileSystem (.empty e.directory) documents
      { status := if report.isFailure settings.threshold then 1 else 0
        output := report.render request.format
        fault := none
        disk := e.disk
        requested := graph.entries.map Entry.id }

/-! ### Setting up -/

def newName : String := "openapi-lint.toml"

def newText : String :=
  Report.ofLines
    ["# openapi-lint configuration",
      "",
      "[analyzer]",
      "# Kind of description: \"default\", \"arm\", \"data-plane\" or \"rpaas\".",
      "# Rules only run when they apply to this type.",
      "openapi_type = \"arm\"",
      "",
      "# Documents linted in parallel (default: available cores)",
      "# parallelism = 4",
      "",
      "# Lowest severity that fails the run: \"error\", \"warning\" or \"info\"",
      "fail_on = \"error\"",
      "",
      "# Rule configurations",
      "# Each rule can be enabled/disabled and have its severity overridden.",
      "# Other keys are handed to the rule as options.",
      "",
      "[rules.PageableOperation]",
      "enabled = true",
      "# severity = \"error\"",
      "",
      "[rules.PatchBodyParametersSchema]",
      "enabled = true"]

def nextSteps : String :=
  Report.ofLines
    [s!"Created {newName}",
      "",
      "Next steps:",
      s!"  1. Edit {newName} to configure rules",
      "  2. Run: openapi-lint check specification/"]

/-- Sets up a settings file, over one that is there only by force. -/
def setUp (e : Environment) (force : Bool) : Outcome :=
  let place := e.here ++ [newName]
  if (e.disk.item? place).isSome && !force then
    e.refuse s!"Configuration file already exists at {newName}. Use --force to overwrite."
  else if e.disk.isDirectoryAt place then e.refuse (e.disk.absence place).message
  else { e.done nextSteps with disk := e.disk.addFile place newText }

/-! ### Commands -/

def perform (e : Environment) (request : Request) : Outcome :=
  match request.command with
  | .check c => e.check request.settings c
  | .listRules =>
    match RuleSet.builtIn with
    | .ok s => e.done s.table
    | .error _ => e.refuse "Failed to build built-in rules"
  | .init force => e.setUp force

/-- Runs a call with some arguments.  A misuse has a status of its own. -/
def run (e : Environment) (args : List String) : Outcome :=
  match Request.read? args with
  | some request => e.perform request
  | none => ⟨2, "", none, e.disk, []⟩

end Environment

end ApiLint
