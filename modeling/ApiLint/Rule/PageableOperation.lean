import ApiLint.Pointer
import ApiLint.Rule.Basic

/-!
# Operations that look pageable

A GET operation whose response has a model of at most three properties, one of them a list, nearly
always returns a page: the items, a link to the next page and perhaps a count.  The rule asks for the
extension that tells clients to fetch all pages.
-/

namespace ApiLint.PageableOperation

def extension : String := "x-ms-pageable"

def maxProperties : Nat := 3

/-- Whether a member name is `get` in letters of either case. -/
def isGet (name : String) : Bool :=
  name.toList.map Char.toLower = ['g', 'e', 't']

/-- The GET operation among the members of a path item, with the name it stands under. -/
def operation? (item : Value) : Option (String × Value) :=
  ((item.members?).getD []).find? fun m => isGet m.1

def schema? (operation : Value) : Option Value :=
  operation.pointer? ["responses", "200", "schema"]

/-- Whether a schema describes a list. -/
def isList (schema : Value) : Bool :=
  (schema.member? "type").bind Value.string? = some "array"

/-- Whether one of some schemas describes a list, references followed. -/
def anyList (c : Context) : List Value → Graph → Bool × Graph
  | [], g => (false, g)
  | schema :: rest, g =>
    match c.view.target? c.files g schema with
    | (some target, g) => if isList target then (true, g) else anyList c rest g
    | (none, g) => anyList c rest g

def looksPaged (c : Context) (properties : List (String × Value)) (g : Graph) : Bool × Graph :=
  if properties.isEmpty || maxProperties < properties.length then (false, g)
  else anyList c (properties.map Prod.snd) g

def message (operation : Value) : String :=
  let id := ((operation.member? "operationId").bind Value.string?).getD ""
  s!"Based on the response model schema, operation '{id}' might be pageable. Consider adding the {extension} extension."

def check (c : Context) (item : Node) (g : Graph) : Except Fault (List Finding) × Graph :=
  match operation? item.value with
  | none => (.ok [], g)
  | some (name, operation) =>
    match schema? operation with
    | none => (.ok [], g)
    | some schema =>
      let (properties, g) := c.view.properties c.files g schema
      let (paged, g) := looksPaged c properties g
      if paged && (operation.member? extension).isNone then
        (.ok [⟨message operation, c.location.child (.key name)⟩], g)
      else (.ok [], g)

def draft : RuleDraft where
  id := "R2029"
  name := "PageableOperation"
  description := "List-shaped GET operations should be marked with x-ms-pageable"
  severity := .warning
  category := "SDKViolation"
  types := .ofList [.arm, .dataPlane]
  given := ["$.paths.*[?(@property === 'get')]^"]
  function := some (.eager check)

end ApiLint.PageableOperation
