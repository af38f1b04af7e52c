import ApiLint.Proofs.Lint.Isolation
import ApiLint.Proofs.View.Lookup
import ApiLint.Rule.BuiltIn

/-!
# The built-in rules are steady

What the function of a built-in rule answers depends on its node, its options and its context, and not on the documents
that were loaded before (`RuleSet.builtIn_steady`).  The function of the one rule only reads the view; that of the other
looks up the properties of schemas and the values they stand for, which is settled.
-/

namespace ApiLint

open ApiLint.Graph (Settled)

variable {files : FileSystem} {g₀ : Graph}

theorem RuleFunction.steady_of_eager {check : Context → Node → Graph → Except Fault (List Finding) × Graph}
    (h : ∀ c n, c.files = files → Settled files g₀ (check c n)) : (RuleFunction.eager check).Steady files g₀ := by
  intro c options n hc
  let yielded : Except Fault (List Finding) → List (Except Fault Finding)
    | .ok findings => findings.map .ok
    | .error fault => [.error fault]
  have hcall : (RuleFunction.eager check).call c options n = fun g => (yielded (check c n g).1, (check c n g).2) := by
    funext g
    rw [call]
    cases check c n g with
    | mk answer after => cases answer <;> rfl
  rw [hcall]
  exact (h c n hc).map

theorem RuleFunction.call_eager {check : Context → Node → Graph → Except Fault (List Finding) × Graph} {c : Context}
    {n : Node} {g : Graph} {found : List Finding} (h : (check c n g).1 = .ok found) (options : Value) :
    ((RuleFunction.eager check).call c options n g).1 = found.map .ok := by
  rw [call]
  cases hcheck : check c n g with
  | mk answer after =>
    rw [hcheck] at h
    subst h
    rfl

namespace PageableOperation

/-- How the search for a list goes on after the first of the schemas was looked up. -/
def anyListAfter (c : Context) (rest : List Value) : Option Value → Graph → Bool × Graph
  | some target, g => if isList target then (true, g) else anyList c rest g
  | none, g => anyList c rest g

theorem anyList_cons (c : Context) (schema : Value) (rest : List Value) (g : Graph) :
    anyList c (schema :: rest) g =
      anyListAfter c rest (c.view.target? c.files g schema).1 (c.view.target? c.files g schema).2 := by
  rw [anyList]
  cases c.view.target? c.files g schema with
  | mk found after => cases found <;> rfl

theorem settled_anyList (hg₀ : g₀.Consistent) {c : Context} (hc : c.files = files) (schemas : List Value) :
    Settled files g₀ (anyList c schemas) := by
  subst hc
  induction schemas with
  | nil => exact .pure c.files g₀ false
  | cons schema rest ih =>
    refine .bind hg₀ (View.settled_target? hg₀ c.view schema) (anyList_cons c schema rest) ?_
    cases (c.view.target? c.files g₀ schema).1 with
    | none => exact ih
    | some target =>
      by_cases hlist : isList target = true
      · have hends : anyListAfter c rest (some target) = fun g => (true, g) := by
          funext g
          exact if_pos hlist
        rw [hends]
        exact .pure c.files g₀ true
      · have hmore : anyListAfter c rest (some target) = anyList c rest := by
          funext g
          exact if_neg hlist
        rw [hmore]
        exact ih

theorem settled_looksPaged (hg₀ : g₀.Consistent) {c : Context} (hc : c.files = files)
    (properties : List (String × Value)) : Settled files g₀ (looksPaged c properties) := by
  by_cases hfew : (properties.isEmpty || maxProperties < properties.length) = true
  · have hlooks : looksPaged c properties = fun g => (false, g) := by
      funext g
      rw [looksPaged, if_pos hfew]
    rw [hlooks]
    exact .pure files g₀ false
  · have hlooks : looksPaged c properties = anyList c (properties.map Prod.snd) := by
      funext g
      rw [looksPaged, if_neg hfew]
    rw [hlooks]
    exact settled_anyList hg₀ hc _

theorem steady_check (hg₀ : g₀.Consistent) : (RuleFunction.eager check).Steady files g₀ := by
  refine RuleFunction.steady_of_eager fun c item hc => ?_
  subst hc
  cases hoperation : operation? item.value with
  | none =>
    have hcheck : check c item = fun g => (.ok [], g) := funext fun g => by simp only [check, hoperation]
    rw [hcheck]
    exact .pure c.files g₀ _
  | some named =>
    obtain ⟨name, operation⟩ := named
    cases hschema : schema? operation with
    | none =>
      have hcheck : check c item = fun g => (.ok [], g) := funext fun g => by simp only [check, hoperation, hschema]
      rw [hcheck]
      exact .pure c.files g₀ _
    | some schema =>
      let judged (paged : Bool) : Except Fault (List Finding) :=
        if paged && (operation.member? extension).isNone then
          .ok [⟨message operation, c.location.child (.key name)⟩]
        else .ok []
      refine .bind hg₀ (View.settled_properties hg₀ c.view schema)
        (k := fun properties g => (judged (looksPaged c properties g).1, (looksPaged c properties g).2))
        (fun g => ?_) (settled_looksPaged hg₀ rfl _).map
      simp only [check, hoperation, hschema, judged]
      split <;> rfl

end PageableOperation

theorem PatchBodyParameters.steady_check (files : FileSystem) (g : Graph) :
    (RuleFunction.streaming check).Steady files g :=
  RuleFunction.steady_of_pure files g _ fun _ _ _ _ => rfl

theorem exists_of_bind_eq_ok {ε α β : Type} {x : Except ε α} {f : α → Except ε β} {b : β}
    (h : x >>= f = .ok b) : ∃ a, x = .ok a ∧ f a = .ok b := by
  cases x with
  | error e => cases h
  | ok a => exact ⟨a, rfl, h⟩

/-- A rule has the function of its draft. -/
theorem RuleDraft.function_of_build {d : RuleDraft} {r : Rule} (h : d.build = .ok r) :
    d.function = some r.function := by
  obtain ⟨given, -, h⟩ := exists_of_bind_eq_ok h
  obtain ⟨field, -, h⟩ := exists_of_bind_eq_ok h
  split at h
  · cases h
  · next function hfunction =>
    cases h
    exact hfunction

theorem RuleSet.mem_of_mem_insertInto {r s : Rule} {rules : List Rule} (h : s ∈ insertInto r rules) :
    s = r ∨ s ∈ rules := by
  induction rules with
  | nil => exact .inl (List.mem_singleton.mp h)
  | cons first rest ih =>
    rw [insertInto] at h
    split at h
    · exact (List.mem_cons.mp h).imp_right (List.mem_cons_of_mem first)
    · rcases List.mem_cons.mp h with rfl | h
      · exact .inr (List.mem_cons_self ..)
      · exact (ih h).imp_right (List.mem_cons_of_mem first)

theorem RuleSet.mem_of_mem_ofList {rules : List Rule} {r : Rule} (h : r ∈ (ofList rules).rules) : r ∈ rules := by
  have hfold : ∀ set : RuleSet, r ∈ (rules.foldl insert set).rules → r ∈ set.rules ∨ r ∈ rules := by
    clear h
    induction rules with
    | nil => exact fun set h => .inl h
    | cons first rest ih =>
      intro set h
      rcases ih (set.insert first) h with h | h
      · exact (mem_of_mem_insertInto h).elim (fun heq => .inr (heq ▸ List.mem_cons_self ..)) .inl
      · exact .inr (List.mem_cons_of_mem first h)
  exact (hfold empty h).resolve_left List.not_mem_nil

/-- **The built-in rules are steady.** -/
theorem RuleSet.builtIn_steady (hg₀ : g₀.Consistent) {set : RuleSet} (h : builtIn = .ok set) :
    ∀ r ∈ set.rules, r.function.Steady files g₀ := by
  obtain ⟨rules, hrules, h⟩ := exists_of_bind_eq_ok h
  cases h
  rw [List.mapM_cons] at hrules
  obtain ⟨pageable, hpageable, hrules⟩ := exists_of_bind_eq_ok hrules
  obtain ⟨rest, hrest, hrules⟩ := exists_of_bind_eq_ok hrules
  rw [List.mapM_cons] at hrest
  obtain ⟨patch, hpatch, hrest⟩ := exists_of_bind_eq_ok hrest
  cases hrules
  cases hrest
  intro r hr
  rcases List.mem_cons.mp (mem_of_mem_ofList hr) with rfl | hr
  · rw [← Option.some.inj (RuleDraft.function_of_build hpageable)]
    exact PageableOperation.steady_check hg₀
  · obtain rfl := List.mem_singleton.mp hr
    rw [← Option.some.inj (RuleDraft.function_of_build hpatch)]
    exact PatchBodyParameters.steady_check files g₀

end ApiLint
