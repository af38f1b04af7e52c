import ApiLint.ApiType
import ApiLint.Severity
import ApiLint.Value

/-!
# Settings of a run

The settings say which kind of description is checked, when a run fails, and what is different for
single rules: whether they run, how severe they are and which options they get.
-/

namespace ApiLint

structure RuleSettings where
  enabled : Option Bool
  severity : Option Severity
  options : List (String × Value)

/-- The options of a rule as a value; none is null. -/
def RuleSettings.optionsValue (s : RuleSettings) : Value :=
  if s.options.isEmpty then .null else .object s.options

structure Settings where
  type : ApiType
  workers : Option Nat
  failOn : Option Severity
  rules : List (String × RuleSettings)

namespace Settings

def default : Settings :=
  ⟨.default, none, none, []⟩

def rule? (s : Settings) (name : String) : Option RuleSettings :=
  List.lookup name s.rules

/-- How many workers a run has on a machine that offers `available`; none is as good as unset. -/
def workerCount (s : Settings) (available : Nat) : Nat :=
  (s.workers.filter (0 < ·)).getD available

def threshold (s : Settings) : Severity :=
  s.failOn.getD .error

def isEnabled (s : Settings) (name : String) : Bool :=
  ((s.rule? name).bind RuleSettings.enabled).getD true

def severity? (s : Settings) (name : String) : Option Severity :=
  (s.rule? name).bind RuleSettings.severity

def options (s : Settings) (name : String) : Value :=
  ((s.rule? name).map RuleSettings.optionsValue).getD .null

end Settings

end ApiLint
