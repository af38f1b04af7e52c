import ApiLint.FilePath
import ApiLint.Path

/-!
# Resource providers

An operation path such as `/subscriptions/{id}/providers/Microsoft.Network/gateways` names the provider
that serves it and the type of resource: the two parts after `providers`.
-/

namespace ApiLint

structure Provider where
  name? : Option String
  resourceType? : Option String
  deriving DecidableEq, Repr

namespace Provider

def none : Provider := ⟨.none, .none⟩

def ofTemplate (template : String) : Provider :=
  let parts := (template.toList.splitOn '/').map String.ofList
  let named := (parts.dropWhile (· ≠ "providers")).drop 1
  ⟨named[0]?, named[1]?⟩

/-- What the location of a finding names, which only locations under `paths` do. -/
def ofPath (p : Path) : Provider :=
  match p.withoutMarker with
  | .key k :: .key template :: _ => if k = "paths" then ofTemplate template else none
  | _ => none

end Provider

end ApiLint
