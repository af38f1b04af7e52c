import ApiLint.Settings
import ApiLint.Toml.Reader

/-!
# Reading settings

`Settings.read` takes the settings from the text of a settings file: the table `analyzer` holds the
settings of the run, and the table `rules` a table for each rule.  In a rule's table `enabled` and
`severity` have a meaning of their own, and everything else is an option.  Unknown names elsewhere do
not count.

A date is an object with a single member under a name of its own.  So a table within an option that starts
with that name has to be a date.
-/

namespace ApiLint

namespace Settings

/-- The word that a value gives: a string, or the only name of a table under which nothing stands. -/
def word? : Value → Option String
  | .string s => some s
  | .object [(k, .object [])] => some k
  | .object [(k, .array [])] => some k
  | _ => none

def bool? : Value → Option Bool
  | .bool b => some b
  | _ => none

def count? : Value → Option Nat
  | .number (.int i) => if 0 ≤ i then some i.natAbs else none
  | _ => none

def severityOf? (v : Value) : Option Severity :=
  (word? v).bind Severity.ofText?

def typeOf? (v : Value) : Option ApiType :=
  (word? v).bind ApiType.ofText?

/-- What is read from a value that may be missing; the outer `none` is a fault. -/
def optional {α : Type} (read : Value → Option α) : Option Value → Option (Option α)
  | none => some none
  | some v => (read v).map some

/-! ### Options -/

open Toml (Item Table dateKey sortMembers)

/-- A date as an option, from the string it is written in. -/
def dateOption? : Item → Option Value
  | .string s => (Toml.dateOf? s).map fun text => .object [(dateKey, .string text)]
  | _ => none

/-- A table as an option, its members being options.  One that starts with the name for a date must be a
date and nothing else. -/
def tableOption? (t : Table) (members : Option (List (String × Value))) : Option Value :=
  match t with
  | (k, v) :: rest =>
    if k = dateKey then
      if rest.isEmpty then dateOption? v else none
    else members.map fun ms => .object (sortMembers ms)
  | [] => some (.object [])

mutual

def option? : Item → Option Value
  | .array items => (itemOptions? items).map .array
  | .inline ms => tableOption? ms (memberOptions? ms)
  | .table _ ms => tableOption? ms (memberOptions? ms)
  | .tables ts => (tableOptions? ts).map .array
  | v => some v.value

def itemOptions? : List Item → Option (List Value)
  | [] => some []
  | v :: vs => do return (← option? v) :: (← itemOptions? vs)

def memberOptions? : List (String × Item) → Option (List (String × Value))
  | [] => some []
  | (k, v) :: ms => do return (k, ← option? v) :: (← memberOptions? ms)

def tableOptions? : List (List (String × Item)) → Option (List Value)
  | [] => some []
  | t :: ts => do return (← tableOption? t (memberOptions? t)) :: (← tableOptions? ts)

end

/-! ### Rules -/

/-- The members of a table.  A date has its text as the only one. -/
def members? : Item → Option Table
  | .inline ms => some ms
  | .table _ ms => some ms
  | .date text => some [(dateKey, .string text)]
  | _ => none

def ruleSettings? (v : Item) : Option RuleSettings := do
  let ms ← members? v
  let enabled ← optional bool? ((List.lookup "enabled" ms).map Item.value)
  let severity ← optional severityOf? ((List.lookup "severity" ms).map Item.value)
  let options ← memberOptions? (ms.filter fun m => m.1 ≠ "enabled" && m.1 ≠ "severity")
  return ⟨enabled, severity, sortMembers options⟩

/-- The settings of rules, in the order of their names. -/
def rules? : Option Item → Option (List (String × RuleSettings))
  | none => some []
  | some v => do
    let rules ← (← members? v).mapM fun m => (ruleSettings? m.2).map fun s => (m.1, s)
    return sortMembers rules

/-! ### Settings -/

/-- The settings of the run that are in their places: the kind of description, the number of workers and
the least severity that fails. -/
def analyzer? (type workers failOn : Option Value) :
    Option (ApiType × Option Nat × Option Severity) := do
  let type ← optional typeOf? type
  let workers ← optional count? workers
  let failOn ← optional severityOf? failOn
  return (type.getD .default, workers, failOn)

/-- The settings of the run: a table, or an array of the settings in order. -/
def run? : Option Value → Option (ApiType × Option Nat × Option Severity)
  | none => analyzer? none none none
  | some (.object ms) =>
    analyzer? (List.lookup "openapi_type" ms) (List.lookup "parallelism" ms) (List.lookup "fail_on" ms)
  | some (.array items) => analyzer? items[0]? items[1]? items[2]?
  | some _ => none

def read (text : String) : Option Settings := do
  let root ← Toml.read text
  let (type, workers, failOn) ← run? ((List.lookup "analyzer" root).map Item.value)
  let rules ← rules? (List.lookup "rules" root)
  return ⟨type, workers, failOn, rules⟩

end Settings

end ApiLint
