import ApiLint.CommandLine.Request
import ApiLint.Json.Writer
import ApiLint.Lint

/-!
# What the command line shows

A report is shown as text with colours for terminals, as one line for each record, or as JSON.
-/

namespace ApiLint

namespace Report

/-! ### Lines -/

/-- The codes that set and reset the colour of a terminal. -/
def red : String := "\x1b[31m"

def yellow : String := "\x1b[33m"

def green : String := "\x1b[32m"

def plain : String := "\x1b[0m"

/-- The colour of the summary: that of the worst thing in the report. -/
def colour (r : Report) : String :=
  if 0 < r.count .error || !r.failures.isEmpty then red
  else if 0 < r.count .warning then yellow
  else green

def summary (r : Report) : String :=
  s!"{r.colour}Found {r.count .error} error(s), {r.count .warning} warning(s), {r.count .info} info(s) in {r.checked} document(s){plain}"

def textLines (r : Report) : List String :=
  r.records.map (fun record => s!"{record.text}\n  at {record.path.text}\n") ++
    r.failures.map (fun f => s!"{red}error{plain}: {f.document.text}: {f.message}") ++
    r.warnings.map (fun w => s!"{yellow}warning{plain}: {w.message}") ++ [r.summary]

/-- A report with one line for each record and for each document that could not be checked. -/
def compactLines (r : Report) : List String :=
  r.records.map (fun record =>
      s!"{record.source}: {record.severity.text} [{record.code}] {record.message}") ++
    r.failures.map fun f => s!"{f.document.text}: error [parse] {f.message}"

/-! ### JSON -/

def countValue (n : Nat) : Value :=
  .number (.int n)

def pathValue (p : Path) : Value :=
  .array (p.map fun s =>
    match s with
    | .key k => .string k
    | .index i => countValue i)

def warningValue (e : ReferenceError) : Value :=
  let common (kind : String) : List (String × Value) :=
    [("kind", .string kind), ("document", .string e.document.text), ("origin", pathValue e.origin),
      ("reference", .string e.reference)]
  match e.problem with
  | .malformed => .object (common "malformed")
  | .missingTarget => .object (common "missing-target")
  | .documentUnavailable target message =>
    .object (common "document-unavailable" ++
      [("target", .string target.text), ("message", .string message)])

def failureValue (f : Failure) : Value :=
  .object [("document", .string f.document.text), ("message", .string f.message)]

def value (r : Report) : Value :=
  .object [("records", .array (r.records.map Record.value)),
    ("failures", .array (r.failures.map failureValue)),
    ("reference_warnings", .array (r.warnings.map warningValue)),
    ("documents_checked", countValue r.checked),
    ("summary", .object [("errors", countValue (r.count .error)),
      ("warnings", countValue (r.count .warning)), ("infos", countValue (r.count .info))])]

/-- The text of a number of a report; all of them are whole. -/
def numberText : Number → String
  | .int i => toString i
  | .real _ => "null"

def ofLines (lines : List String) : String :=
  String.join (lines.map (· ++ "\n"))

def render (r : Report) : ReportFormat → String
  | .text => ofLines r.textLines
  | .compact => ofLines r.compactLines
  | .json => ofLines [Json.pretty numberText 0 r.value]

end Report

namespace RuleSet

def padded (width : Nat) (text : String) : String :=
  text.pushn ' ' (width - text.length)

def row (id name severity types description : String) : String :=
  s!"{padded 8 id} {padded 28 name} {padded 9 severity} {padded 20 types} {description}"

def table (s : RuleSet) : String :=
  Report.ofLines <|
    ["Available rules:", "", row "Id" "Name" "Severity" "Types" "Description", "".pushn '-' 100] ++
    s.rules.map (fun r => row r.id r.name r.severity.text (",".intercalate r.types.names) r.description) ++
    ["", "Use --rules to run specific rules, e.g.:",
      "  openapi-lint check --rules PageableOperation specification/",
      "  openapi-lint check --rules R2029,R4007 network.json"]

end RuleSet

end ApiLint
