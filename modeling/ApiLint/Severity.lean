/-!
# Severities

How much a finding matters: an information never fails a run by itself, a warning should be looked at, an
error must be mended.
-/

namespace ApiLint

inductive Severity where
  | info
  | warning
  | error
  deriving DecidableEq, Repr

namespace Severity

def text : Severity → String
  | info => "info"
  | warning => "warning"
  | error => "error"

def ofText? (name : String) : Option Severity :=
  [info, warning, error].find? fun s => s.text = name

def weight : Severity → Nat
  | info => 0
  | warning => 1
  | error => 2

/-- Whether `s` weighs at least as much as `threshold`. -/
def reaches (s threshold : Severity) : Bool :=
  threshold.weight ≤ s.weight

theorem ofText?_text (s : Severity) : ofText? s.text = some s := by
  cases s <;> decide

end Severity

end ApiLint
