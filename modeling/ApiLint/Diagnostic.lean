import ApiLint.Provider
import ApiLint.Rule.Basic
import ApiLint.Severity

/-!
# Diagnostics

A diagnostic is a finding together with the rule that made it and the document it is about.
-/

namespace ApiLint

structure Diagnostic where
  ruleId : String
  ruleName : String
  severity : Severity
  category : String
  message : String
  document : DocumentId
  path : Path
  deriving DecidableEq, Repr

namespace Diagnostic

def provider (d : Diagnostic) : Provider :=
  .ofPath d.path

def text (d : Diagnostic) : String :=
  s!"{d.document.text} {d.path.text}: {d.severity.text} [{d.ruleId} {d.ruleName}] {d.message}"

def ofFinding (r : Rule) (severity : Severity) (document : DocumentId) (f : Finding) : Diagnostic :=
  ⟨r.id, r.name, severity, r.category, f.message, document, f.location⟩

/-- What is said of a call that ended early at a target. -/
def ofFault (r : Rule) (document : DocumentId) (target : Path) (fault : Fault) : Diagnostic :=
  ofFinding r .error document ⟨s!"Rule {r.name} failed: {fault.text}", target⟩

end Diagnostic

end ApiLint
