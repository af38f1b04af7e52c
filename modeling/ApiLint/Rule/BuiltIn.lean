import ApiLint.Rule.PageableOperation
import ApiLint.Rule.PatchBodyParameters

/-!
# The built-in rules
-/

namespace ApiLint

def RuleSet.builtIn : Except DefinitionError RuleSet := do
  let rules ← [PageableOperation.draft, PatchBodyParameters.draft].mapM RuleDraft.build
  return ofList rules

end ApiLint
