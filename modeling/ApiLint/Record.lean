import ApiLint.Diagnostic

/-!
# Records

A record is a diagnostic that has been traced back to the text: its span is that of the node it is
about, or of the nearest node above when rules made a path up.
-/

namespace ApiLint

structure Record where
  severity : Severity
  code : String
  message : String
  id : String
  category : String
  provider : Provider
  document : DocumentId
  path : Path
  span : Span
  deriving DecidableEq, Repr

/-- Where a path of a document was written; for a path that leads nowhere, where its longest part that
leads to a node was. -/
def Document.spanNear (d : Document) (p : Path) : Span :=
  (d.span? p).getD (d.nearestSpan p).2

namespace Record

/-- The span of a place in the documents loaded so far; of a document that is not among them there is
only the empty span. -/
def spanOf (g : Graph) (document : DocumentId) (p : Path) : Span :=
  match g.get document with
  | .ok d => d.spanNear p
  | .error _ => .zero

def ofDiagnostic (g : Graph) (d : Diagnostic) : Record :=
  let path := d.path.withoutMarker
  { severity := d.severity, code := d.ruleName, message := d.message, id := d.ruleId
    category := d.category, provider := d.provider, document := d.document, path
    span := spanOf g d.document path }

def source (r : Record) : String :=
  s!"{r.document.text}:{r.span.first.line}:{r.span.first.column}"

def text (r : Record) : String :=
  s!"{r.source}: {r.severity.text} [{r.id} {r.code}] {r.message}"

def heading (r : Record) : String :=
  s!"[{r.id}] {r.message}"

def help (r : Record) : String :=
  s!"{r.path.text} ({r.category})"

def positionValue (p : Position) : Value :=
  .object [("line", .number (.int p.line)), ("column", .number (.int p.column))]

/-- A record as a value.  What its location does not name is left out. -/
def value (r : Record) : Value :=
  let named (name : String) (text : Option String) : List (String × Value) :=
    (text.map fun t => (name, Value.string t)).toList
  .object <|
    [("type", .string r.severity.text), ("code", .string r.code), ("message", .string r.message),
      ("id", .string r.id), ("validationCategory", .string r.category)] ++
    named "providerNamespace" r.provider.name? ++ named "resourceType" r.provider.resourceType? ++
    [("sources", .array [.string r.source]), ("json-path", .string r.path.text),
      ("location", positionValue r.span.first),
      ("range", .object [("start", positionValue r.span.first), ("end", positionValue r.span.last)])]

end Record

end ApiLint
