import ApiLint.Proofs.DocumentOrder
import ApiLint.Proofs.Lint.BuiltInRules
import ApiLint.Proofs.Query.CanonicalText
import ApiLint.Proofs.Query.Filters
import ApiLint.Proofs.Query.MatchOrder
import ApiLint.Proofs.View.Inheritance

/-!
# Which operations are said to look pageable

The query of the rule comes to the path items that have a member `get`, each of them once and in order
(`run_query`).  For each of them the function of the rule looks for the operation once more, and takes the first member
that is called `get` in letters of either case (`check_eq`).

So what is said of a document is what is said of its path items, one after another (`check_alone`).  Where no other
spelling of `get` stands in front of it, the operation under `get` is reported if and only if it looks pageable
(`LooksPageable`), and there is one diagnostic for it (`flags`).  Where another spelling stands in front, that member is
looked at instead, and a list under `get` goes unnoticed (`not_flagged_behind_other_spelling`).
-/

namespace ApiLint

/-! ### Lists by key -/

section

variable {κ α β : Type} [DecidableEq κ] {xs : List (κ × α)} {x : κ × α}

/-- Of a list with distinct keys, those with the key of a member are that member. -/
theorem filter_of_key (hnodup : (xs.map Prod.fst).Nodup) (hx : x ∈ xs) : (xs.filter fun y => y.1 = x.1) = [x] := by
  induction xs with
  | nil => cases hx
  | cons y ys ih =>
    rw [List.map_cons, List.nodup_cons] at hnodup
    rw [List.filter_cons]
    rcases List.mem_cons.mp hx with rfl | hx
    · have hrest : (ys.filter fun z => z.1 = x.1) = [] := by
        rw [List.filter_eq_nil_iff]
        intro z hz
        rw [decide_eq_true_iff]
        exact fun heq => hnodup.1 (List.mem_map.mpr ⟨z, hz, heq⟩)
      rw [if_pos (decide_eq_true rfl), hrest]
    · have hne : y.1 ≠ x.1 := fun heq => hnodup.1 (List.mem_map.mpr ⟨x, hx, heq.symm⟩)
      rw [if_neg (by simpa using hne), ih hnodup.2 hx]

/-- What the members of a list contribute, cut down to what belongs to one key, is what its member contributes. -/
theorem filter_flatMap_of_key (hnodup : (xs.map Prod.fst).Nodup) (hx : x ∈ xs) {f : κ × α → List β} {p : β → Bool}
    (hp : ∀ y ∈ xs, ∀ b ∈ f y, p b = decide (y.1 = x.1)) : (xs.flatMap f).filter p = f x := by
  have hparts : ∀ y ∈ xs, (f y).filter p = if y.1 = x.1 then f y else [] := by
    intro y hy
    by_cases hkey : y.1 = x.1
    · rw [if_pos hkey, List.filter_eq_self]
      exact fun b hb => (hp y hy b hb).trans (decide_eq_true hkey)
    · rw [if_neg hkey, List.filter_eq_nil_iff]
      intro b hb
      rw [hp y hy b hb, decide_eq_true_iff]
      exact hkey
  have hkept : ∀ ys : List (κ × α), (ys.flatMap fun y => if y.1 = x.1 then f y else [])
      = (ys.filter fun y => y.1 = x.1).flatMap f := by
    intro ys
    induction ys with
    | nil => rfl
    | cons y ys ih =>
      rw [List.flatMap_cons, List.filter_cons, ih]
      by_cases hkey : y.1 = x.1 <;> simp [hkey]
  rw [List.filter_flatMap, List.flatMap_congr hparts, hkept, filter_of_key hnodup hx, List.flatMap_singleton]

end

namespace PageableOperation

open ApiLint.Graph (Grows Settled Yields)

variable {files : FileSystem} {g : Graph} {v : View} {item root : Value}

/-! ### Path items -/

def pathItems (root : Value) : List (Segment × Value) :=
  ((root.member? "paths").map Value.children).getD []

theorem get?_paths (root : Value) : root.get? [.key "paths"] = root.member? "paths" := by
  rw [Value.get?_cons]
  exact Option.bind_fun_some _

theorem value_of_mem_pathItems (h : root.HasDistinctNames) {i : Segment × Value} (hi : i ∈ pathItems root) :
    root.get? [.key "paths", i.1] = some i.2 := by
  rw [pathItems, ← get?_paths] at hi
  cases hpaths : root.get? [.key "paths"] with
  | none =>
    rw [hpaths] at hi
    cases hi
  | some w =>
    rw [hpaths] at hi
    have hchild := (h.of_get? hpaths).child?_of_mem_children hi
    rw [← List.singleton_append, Value.get?_append, hpaths, Option.bind_some, Value.get?_cons, hchild]
    rfl

theorem nodup_pathItems (h : root.HasDistinctNames) : ((pathItems root).map Prod.fst).Nodup := by
  rw [pathItems, ← get?_paths]
  cases hpaths : root.get? [.key "paths"] with
  | none => exact List.nodup_nil
  | some w => exact (h.of_get? hpaths).nodup_children

/-- In front of the member `get` of a path item stands none that has its name in other letters. -/
def Unshadowed (item : Value) : Prop :=
  ((item.members?).getD []).Pairwise fun before m => m.1 = "get" → isGet before.1 = false

instance decidableUnshadowed (item : Value) : Decidable (Unshadowed item) :=
  inferInstanceAs (Decidable (List.Pairwise _ _))

theorem operation?_of_unshadowed (h : Unshadowed item) {operation : Value}
    (hget : item.member? "get" = some operation) : operation? item = some ("get", operation) := by
  cases item with
  | object members =>
    obtain ⟨before, after, rfl⟩ := List.append_of_mem (mem_of_lookup hget)
    have hbefore : before.find? (fun m => isGet m.1) = none :=
      List.find?_eq_none.mpr fun m hm =>
        Bool.eq_false_iff.mp ((List.pairwise_append.mp h).2.2 m hm _ (List.mem_cons_self ..) rfl)
    show (before ++ ("get", operation) :: after).find? (fun m => isGet m.1) = some ("get", operation)
    rw [List.find?_append, hbefore, Option.none_or]
    exact List.find?_cons_of_pos (p := fun m : String × Value => isGet m.1) (show isGet "get" = true by decide)
  | _ => cases hget

/-! ### The query -/

section

open Query.Reader

def condition : Query.Expr :=
  .compare .strictEqual .property (.literal (.string "get"))

def query : Query where
  text := "$.paths.*[?(@property === 'get')]^"
  steps := [.child [.name "paths"], .child [.wildcard], .child [.filter condition], .parent]

theorem leaves_condition : Leaves (orExpr "@property === 'get')]^".toList) condition ")]^".toList := by
  have hproperty : Leaves (unary "@property === 'get')]^".toList) .property " === 'get')]^".toList :=
    leaves_unary_primary (l := "property === 'get')]^".toList) (by decide +kernel) (by decide)
      (reads_primary_property (by decide +kernel))
  have hsymbol : comparison? Query.Comparison.all (skipBlanks " === 'get')]^".toList)
      = some (.strictEqual, " 'get')]^".toList) := by
    decide +kernel
  have htext : Leaves (unary " 'get')]^".toList) (.literal (.string "get")) ")]^".toList :=
    leaves_unary_primary (c := '\'') (l := "get')]^".toList) (by decide +kernel) (by decide)
      (reads_primary_string (by decide) (reads_quoted (by decide) "get" _))
  have hand : Leaves (andExpr "@property === 'get')]^".toList) condition ")]^".toList :=
    Junction.leaves_operands (j := .and) (leaves_comparison_compare hproperty hsymbol htext) fun l hl =>
      (Junction.leaves_more_stop (by rw [hl]; decide +kernel)).congr hl
  exact Junction.leaves_operands (j := .or) hand fun l hl =>
    (Junction.leaves_more_stop (by rw [hl]; decide +kernel)).congr hl

theorem read_query : Query.read query.text = .ok query := by
  have hpaths : Reads (step ".paths.*[?(@property === 'get')]^".toList) (.child [.name "paths"])
      ".*[?(@property === 'get')]^".toList := by
    have hstops : Json.Grammar.Stops isMemberChar ('.' :: "*[?(@property === 'get')]^".toList) :=
      Json.Grammar.stops_cons (by decide)
    exact reads_step_plainKey (k := "paths") (by decide +kernel) hstops
  have hall : Reads (step ".*[?(@property === 'get')]^".toList) (.child [.wildcard])
      "[?(@property === 'get')]^".toList :=
    reads_step_member (by decide +kernel) ⟨by decide +kernel, rfl⟩
  have hfilter : Reads (step "[?(@property === 'get')]^".toList) (.child [.filter condition]) "^".toList := by
    obtain ⟨l, hread, hskip⟩ := leaves_condition
    have hopen : skipBlanks "(@property === 'get')]^".toList = '(' :: "@property === 'get')]^".toList := by
      decide +kernel
    have hclose : skipBlanks l = ')' :: "]^".toList := hskip.trans (by decide +kernel)
    exact reads_step_bracket (reads_bracket_filter (l := "(@property === 'get')]^".toList) (by decide +kernel)
      (reads_filter hopen hread hclose (by decide +kernel)))
  have hparent : allSteps "^".toList = .ok [.parent] :=
    allSteps_cons (by decide +kernel) (reads_step_parent []) (allSteps_of_blank rfl)
  have hsteps : allSteps ".paths.*[?(@property === 'get')]^".toList = .ok query.steps :=
    allSteps_cons (by decide +kernel) hpaths (allSteps_cons (by decide +kernel) hall
      (allSteps_cons (by decide +kernel) hfilter hparent))
  rw [Query.read, readChars_root (by decide +kernel) hsteps]

end

theorem truthy_condition (n : Node) (s : Segment) : Query.truthy (condition.eval n s) = decide (s = .key "get") := by
  cases s with
  | key k =>
    show (k == "get") = decide (Segment.key k = .key "get")
    by_cases hk : k = "get" <;> simp [hk]
  | index i => rfl

/-- Of the children of a value, those under `get` are the member `get`. -/
theorem filter_children (h : item.HasDistinctNames) :
    (item.children.filter fun c => c.1 = .key "get") = ((item.member? "get").map fun w => (.key "get", w)).toList := by
  cases hget : item.member? "get" with
  | none =>
    rw [Option.map_none, Option.toList_none, List.filter_eq_nil_iff]
    intro c hc
    rw [decide_eq_true_iff]
    intro hkey
    have hchild := h.child?_of_mem_children (s := c.1) (c := c.2) hc
    rw [hkey] at hchild
    cases hget.symm.trans hchild
  | some w =>
    have hmem : (Segment.key "get", w) ∈ item.children := by
      cases item with
      | object members => exact List.mem_map.mpr ⟨("get", w), mem_of_lookup hget, rfl⟩
      | _ => cases hget
    exact filter_of_key h.nodup_children hmem

theorem select_condition (h : item.HasDistinctNames) (p : Path) :
    Query.select [.filter condition] ⟨p, .raw item⟩
      = ((item.member? "get").map fun w => (⟨p.child (.key "get"), .raw w⟩ : Query.Match)).toList := by
  have hpick : (Query.Selector.filter condition).pick (.raw item)
      = (item.children.filter fun c => c.1 = .key "get").map fun c => (c.1, .raw c.2) := by
    show (item.children.map fun c => (c.1, Node.raw c.2)).filter (fun c => Query.truthy (condition.eval c.2 c.1)) = _
    rw [List.filter_map]
    exact congrArg _ (List.filter_congr fun c _ => truthy_condition _ c.1)
  rw [Query.select_singleton, hpick, filter_children h]
  cases item.member? "get" <;> rfl

/-- The first two steps come to the path items. -/
theorem apply_paths (root : Value) :
    Query.Step.apply (.raw root) (Query.Step.apply (.raw root) [⟨[], .raw root⟩] (.child [.name "paths"]))
      (.child [.wildcard]) = (pathItems root).map fun i => ⟨[.key "paths", i.1], .raw i.2⟩ := by
  have hname : Query.select [.name "paths"] ⟨[], .raw root⟩
      = ((root.member? "paths").map fun w => (⟨[.key "paths"], .raw w⟩ : Query.Match)).toList := by
    rw [Query.select_singleton]
    show (((root.member? "paths").map Node.raw).map fun c => (Segment.key "paths", c)).toList.map _ = _
    cases root.member? "paths" <;> rfl
  rw [Query.Step.apply, Query.Step.apply, List.flatMap_singleton, hname, pathItems]
  cases root.member? "paths" with
  | none => rfl
  | some w =>
    rw [Option.map_some, Option.toList_some, List.flatMap_singleton, Query.select_singleton]
    show (w.children.map fun c => (c.1, Node.raw c.2)).map _ = _
    rw [List.map_map]
    rfl

/-- The third step comes from the path items to their members `get`. -/
theorem apply_condition (h : root.HasDistinctNames) :
    Query.Step.apply (.raw root) ((pathItems root).map fun i => ⟨[.key "paths", i.1], .raw i.2⟩)
      (.child [.filter condition]) = (pathItems root).filterMap fun i =>
        (i.2.member? "get").map fun w => ⟨[.key "paths", i.1, .key "get"], .raw w⟩ := by
  rw [Query.Step.apply, List.flatMap_map, List.filterMap_eq_flatMap_toList]
  exact List.flatMap_congr fun i hi => select_condition (h.of_get? (value_of_mem_pathItems h hi)) _

/-- The last step goes back up to the path items.  They are different, so that none of them is dropped. -/
theorem apply_parent (h : root.HasDistinctNames) :
    Query.Step.apply (.raw root) ((pathItems root).filterMap fun i => (i.2.member? "get").map fun w =>
        (⟨[.key "paths", i.1, .key "get"], .raw w⟩ : Query.Match)) .parent
      = (pathItems root).filterMap fun i => (i.2.member? "get").map fun _ => ⟨[.key "paths", i.1], .raw i.2⟩ := by
  have hparents : ((pathItems root).filterMap fun i => (i.2.member? "get").map fun w =>
        (⟨[.key "paths", i.1, .key "get"], .raw w⟩ : Query.Match)).filterMap (fun m => m.path.parent?)
      = (pathItems root).filterMap fun i => (i.2.member? "get").map fun _ => [.key "paths", i.1] := by
    rw [List.filterMap_filterMap]
    refine List.filterMap_congr fun i _ => ?_
    cases i.2.member? "get" <;> rfl
  have hnodup : ((pathItems root).filterMap fun i =>
      (i.2.member? "get").map fun _ => ([.key "paths", i.1] : Path)).Nodup := by
    refine (List.pairwise_map.mp (nodup_pathItems h)).filterMap _ fun i j hij p hp q hq => ?_
    obtain ⟨-, -, rfl⟩ := Option.map_eq_some_iff.mp hp
    obtain ⟨-, -, rfl⟩ := Option.map_eq_some_iff.mp hq
    exact fun heq => hij (List.cons.inj (List.cons.inj heq).2).1
  rw [Query.Step.apply, hparents, eraseDups_of_nodup hnodup, List.filterMap_filterMap]
  refine List.filterMap_congr fun i hi => ?_
  cases i.2.member? "get" with
  | none => rfl
  | some w =>
    rw [Option.map_some, Option.bind_some, Node.at?_raw, value_of_mem_pathItems h hi]
    rfl

/-- **The query comes to the path items that have a member `get`**, each of them once. -/
theorem run_query (h : root.HasDistinctNames) :
    query.run (.raw root) = (pathItems root).filterMap fun i =>
      (i.2.member? "get").map fun _ => ⟨[.key "paths", i.1], .raw i.2⟩ := by
  rw [Query.run, query, List.foldl_cons, List.foldl_cons, apply_paths, List.foldl_cons, apply_condition h,
    List.foldl_cons, apply_parent h, List.foldl_nil]

/-! ### The rule -/

def rule (severity : Severity) : Rule where
  id := draft.id
  name := draft.name
  description := draft.description
  severity := severity
  category := draft.category
  types := draft.types
  resolved := draft.resolved
  given := [query]
  field := none
  options := draft.options
  function := .eager check

theorem build_eq (severity : Severity) :
    ({ draft with severity := severity } : RuleDraft).build = .ok (rule severity) := by
  have hcompile : ({ draft with severity := severity } : RuleDraft).compile query.text = .ok query := by
    rw [RuleDraft.compile, read_query]
    rfl
  have hgiven : ({ draft with severity := severity } : RuleDraft).given.mapM
      ({ draft with severity := severity } : RuleDraft).compile = .ok [query] := by
    show List.mapM _ [query.text] = _
    rw [List.mapM_cons, hcompile]
    rfl
  rw [RuleDraft.build, hgiven]
  rfl

/-! ### What is said of an operation -/

def StandsForList (files : FileSystem) (v : View) (g : Graph) (value : Value) : Prop :=
  ∃ target ∈ (v.target? files g value).1, (target.member? "type").bind Value.string? = some "array"

instance decidableStandsForList (files : FileSystem) (v : View) (g : Graph) (value : Value) :
    Decidable (StandsForList files v g value) :=
  inferInstanceAs (Decidable (∃ _ ∈ _, _))

/-- The operation is not marked as pageable, and the schema of its response has one to three properties, inherited ones
included, of which one stands for a list. -/
def LooksPageable (files : FileSystem) (v : View) (g : Graph) (operation : Value) : Prop :=
  (operation.member? "x-ms-pageable").isNone ∧ ∃ schema ∈ operation.pointer? ["responses", "200", "schema"],
    1 ≤ (v.properties files g schema).1.length ∧ (v.properties files g schema).1.length ≤ 3 ∧
      ∃ p ∈ (v.properties files g schema).1, StandsForList files v g p.2

instance decidableLooksPageable (files : FileSystem) (v : View) (g : Graph) (operation : Value) :
    Decidable (LooksPageable files v g operation) :=
  inferInstanceAs (Decidable (_ ∧ _))

/-- The operation looks pageable, and the models that its response inherits from are looked up in so many rounds. -/
def LooksPageableWithin (rounds : Nat) (files : FileSystem) (v : View) (g : Graph) (operation : Value) : Prop :=
  (operation.member? "x-ms-pageable").isNone ∧ ∃ schema ∈ operation.pointer? ["responses", "200", "schema"],
    ∃ models ∈ View.lineageWithin files v rounds g [] [schema],
      let properties := (models.1.map View.ownProperties).foldl View.declare []
      1 ≤ properties.length ∧ properties.length ≤ 3 ∧ ∃ p ∈ properties, StandsForList files v g p.2

instance decidableLooksPageableWithin (rounds : Nat) (files : FileSystem) (v : View) (g : Graph) (operation : Value) :
    Decidable (LooksPageableWithin rounds files v g operation) :=
  inferInstanceAs (Decidable (_ ∧ _))

theorem LooksPageableWithin.looksPageable {rounds : Nat} {operation : Value}
    (h : LooksPageableWithin rounds files v g operation) : LooksPageable files v g operation := by
  obtain ⟨hunmarked, schema, hschema, models, hmodels, hpaged⟩ := h
  rw [← View.names_of_within hmodels] at hpaged
  exact ⟨hunmarked, schema, hschema, hpaged⟩

/-- What is found in a path item: what is to be said of the operation that is looked at, under its own name. -/
def findings (files : FileSystem) (v : View) (g : Graph) (location : Path) (item : Value) : List Finding :=
  match operation? item with
  | none => []
  | some (name, operation) =>
    if LooksPageable files v g operation then [⟨message operation, location.child (.key name)⟩] else []

theorem anyList_eq (hg : g.Consistent) (c : Context) (schemas : List Value) :
    (anyList c schemas g).1 = decide (∃ schema ∈ schemas, StandsForList c.files c.view g schema) := by
  induction schemas with
  | nil => simp [anyList]
  | cons schema rest ih =>
    have hgrows : Grows c.files g (c.view.target? c.files g schema).2 :=
      (View.settled_target? hg c.view schema).grows g (.refl c.files hg)
    have hrest := ((settled_anyList hg (c := c) rfl rest).same _ hgrows).trans ih
    simp only [List.exists_mem_cons_iff, Bool.decide_or, ← hrest]
    rw [anyList_cons]
    cases hfound : (c.view.target? c.files g schema).1 with
    | none => simp [anyListAfter, StandsForList, hfound]
    | some target =>
      have hlist : isList target = decide (StandsForList c.files c.view g schema) := by
        simp [isList, StandsForList, hfound]
      rw [anyListAfter, ← hlist]
      by_cases h : isList target = true
      · rw [if_pos h, h, Bool.true_or]
      · rw [if_neg h, Bool.eq_false_iff.mpr h, Bool.false_or]

theorem looksPaged_eq (hg : g.Consistent) (c : Context) (properties : List (String × Value)) :
    (looksPaged c properties g).1 = decide (1 ≤ properties.length ∧ properties.length ≤ 3 ∧
      ∃ p ∈ properties, StandsForList c.files c.view g p.2) := by
  have hempty : properties.isEmpty = true ↔ ¬ 1 ≤ properties.length := by
    rw [List.isEmpty_iff_length_eq_zero]
    omega
  rw [looksPaged]
  by_cases hfew : (properties.isEmpty || maxProperties < properties.length) = true
  · rw [if_pos hfew]
    refine (decide_eq_false ?_).symm
    rintro ⟨hsome, hmany, -⟩
    rcases Bool.or_eq_true_iff.mp hfew with h | h
    · exact hempty.mp h hsome
    · exact absurd (of_decide_eq_true h) (by unfold maxProperties; omega)
  · rw [if_neg hfew, anyList_eq hg]
    rw [Bool.or_eq_true, not_or, hempty, not_not, decide_eq_true_iff] at hfew
    refine decide_eq_decide.mpr ⟨fun h => ⟨hfew.1, Nat.le_of_not_lt hfew.2, ?_⟩, fun h => ?_⟩
    · obtain ⟨schema, hmem, hlist⟩ := h
      obtain ⟨p, hp, rfl⟩ := List.mem_map.mp hmem
      exact ⟨p, hp, hlist⟩
    · obtain ⟨-, -, p, hp, hlist⟩ := h
      exact ⟨p.2, List.mem_map_of_mem hp, hlist⟩

/-- **What the function of the rule answers for a path item.** -/
theorem check_eq (hg : g.Consistent) (c : Context) (item : Node) :
    (check c item g).1 = .ok (findings c.files c.view g c.location item.value) := by
  rw [check, findings]
  cases operation? item.value with
  | none => rfl
  | some named =>
    obtain ⟨name, operation⟩ := named
    dsimp only
    cases hschema : schema? operation with
    | none =>
      rw [if_neg]
      rintro ⟨-, schema, hmem, -⟩
      cases hschema.symm.trans hmem
    | some schema =>
      have hgrows := (View.settled_properties hg c.view schema).grows g (.refl c.files hg)
      have hpaged := ((settled_looksPaged hg rfl (c.view.properties c.files g schema).1).same _ hgrows).trans
        (looksPaged_eq hg c _)
      have hlooks : LooksPageable c.files c.view g operation ↔
          ((looksPaged c (c.view.properties c.files g schema).1 (c.view.properties c.files g schema).2).1 &&
            (operation.member? extension).isNone) = true := by
        rw [hpaged, Bool.and_eq_true, decide_eq_true_iff, and_comm]
        refine and_congr_right fun _ => ⟨fun h => ?_, fun h => ⟨schema, hschema, h⟩⟩
        obtain ⟨schema', hmem, h⟩ := h
        cases hschema.symm.trans hmem
        exact h
      dsimp only
      by_cases h : LooksPageable c.files c.view g operation
      · rw [if_pos h, if_pos (hlooks.mp h)]
      · rw [if_neg h, if_neg fun h' => h (hlooks.mpr h')]

/-! ### Documents -/

section

variable {l : Linter} {r : Rule} {severity : Severity} {d : Loaded}

/-- The linter runs the rule `r`, which is this one at some severity, and no other, on a description that it is for. -/
structure RunsAlone (l : Linter) (r : Rule) : Prop where
  build : ∃ severity, ({ draft with severity := severity } : RuleDraft).build = .ok r
  rules : l.rules.rules = [r]
  type : l.settings.type = .arm ∨ l.settings.type = .dataPlane
  enabled : l.settings.isEnabled r.name = true

def said (files : FileSystem) (v : View) (g : Graph) (diagnostic : Finding → Diagnostic) (i : Segment × Value) :
    List Diagnostic :=
  if (i.2.member? "get").isSome then (findings files v g [.key "paths", i.1] i.2).map diagnostic else []

/-- The calls of the rule contribute what is said of the path items, one after another. -/
theorem ruleDiagnostics_eq (hg : g.Consistent) {v : View} (hv : v.root.document.value.HasDistinctNames) :
    l.ruleDiagnostics files v g (rule severity) = (pathItems v.root.document.value).flatMap
      (said files v g (.ofFinding (rule severity) (l.severityOf (rule severity)) v.id)) := by
  have htargets : (rule severity).targets (Linter.treeFor v (rule severity)) = query.run (.raw v.root.document.value) :=
    List.flatMap_singleton ..
  have hcall : ∀ t : Query.Match, l.diagnosticsOf v (rule severity) t.path (l.invoke files v (rule severity) t g).1
      = (findings files v g t.path t.node.value).map
        (.ofFinding (rule severity) (l.severityOf (rule severity)) v.id) := by
    intro t
    have hitems : (l.invoke files v (rule severity) t g).1 = (findings files v g t.path t.node.value).map .ok :=
      RuleFunction.call_eager (check_eq hg ⟨files, v, Linter.treeFor v (rule severity), t.path⟩ t.node) _
    rw [Linter.diagnosticsOf, hitems, untilFault_map_ok]
    exact List.append_nil _
  rw [Linter.ruleDiagnostics, htargets, run_query hv, List.filterMap_eq_flatMap_toList, List.flatMap_assoc]
  refine List.flatMap_congr fun i _ => ?_
  rw [said]
  cases i.2.member? "get" with
  | none => rfl
  | some w =>
    rw [Option.map_some, Option.toList_some, List.flatMap_singleton, hcall]
    rfl

section

variable {v : View} {document : DocumentId} {i : Segment × Value}

theorem location_of_mem_findings {p : Path} {f : Finding} (hf : f ∈ findings files v g p item) :
    ∃ name, f.location = p.child (.key name) := by
  rw [findings] at hf
  split at hf
  · cases hf
  · next name operation _ =>
    split at hf
    · obtain rfl := List.mem_singleton.mp hf
      exact ⟨name, rfl⟩
    · cases hf

/-- What is said of a path item is said of what stands under its name. -/
theorem prefix_iff_of_mem_said {x : Diagnostic} (hx : x ∈ said files v g (.ofFinding r severity document) i)
    (name : Segment) : [.key "paths", name] <+: x.path ↔ i.1 = name := by
  rw [said] at hx
  split at hx
  · obtain ⟨f, hf, rfl⟩ := List.mem_map.mp hx
    obtain ⟨member, hlocation⟩ := location_of_mem_findings hf
    show [.key "paths", name] <+: f.location ↔ _
    rw [hlocation]
    show [.key "paths", name] <+: [.key "paths", i.1, .key member] ↔ _
    simp [eq_comm]
  · cases hx

/-- What is said of a path item that has a member `get` is said of the first that has this name in any letters. -/
theorem said_of_operation? (hget : (i.2.member? "get").isSome) {name : String} {operation : Value}
    (hfirst : operation? i.2 = some (name, operation)) (diagnostic : Finding → Diagnostic) :
    said files v g diagnostic i = if LooksPageable files v g operation then
      [diagnostic ⟨message operation, [.key "paths", i.1, .key name]⟩] else [] := by
  rw [said, if_pos hget, findings, hfirst]
  dsimp only
  by_cases h : LooksPageable files v g operation
  · rw [if_pos h, if_pos h]
    rfl
  · rw [if_neg h, if_neg h]
    rfl

theorem said_of_looksPageable (hshadow : Unshadowed i.2) {operation : Value}
    (hget : i.2.member? "get" = some operation) (hlooks : LooksPageable files v g operation)
    (diagnostic : Finding → Diagnostic) :
    said files v g diagnostic i = [diagnostic ⟨message operation, [.key "paths", i.1, .key "get"]⟩] := by
  rw [said_of_operation? (Option.isSome_of_eq_some hget) (operation?_of_unshadowed hshadow hget), if_pos hlooks]

theorem said_of_not_looksPageable (hshadow : Unshadowed i.2)
    (hlooks : ∀ operation, i.2.member? "get" = some operation → ¬ LooksPageable files v g operation)
    (diagnostic : Finding → Diagnostic) : said files v g diagnostic i = [] := by
  cases hget : i.2.member? "get" with
  | none => rw [said, hget, Option.isSome_none, if_neg Bool.false_ne_true]
  | some operation =>
    rw [said_of_operation? (Option.isSome_of_eq_some hget) (operation?_of_unshadowed hshadow hget),
      if_neg (hlooks operation hget)]

end

/-- Of the diagnostics, those that lie in the path item under a name. -/
def about (name : Segment) (found : List Diagnostic) : List Diagnostic :=
  found.filter fun x => [.key "paths", name] <+: x.path

/-- The diagnostics `found` tell of the operations under `get` that look pageable, each of them once, and of nothing
else, unless another spelling of the name stands in front: then they tell of the member that has it. -/
structure Flags (files : FileSystem) (v : View) (g : Graph) (diagnostic : Finding → Diagnostic)
    (found : List Diagnostic) : Prop where
  flagged : ∀ i ∈ pathItems v.root.document.value, Unshadowed i.2 → ∀ operation, i.2.member? "get" = some operation →
    LooksPageable files v g operation →
      about i.1 found = [diagnostic ⟨message operation, [.key "paths", i.1, .key "get"]⟩]
  spared : ∀ i ∈ pathItems v.root.document.value, Unshadowed i.2 →
    (∀ operation, i.2.member? "get" = some operation → ¬ LooksPageable files v g operation) → about i.1 found = []
  shadowed : ∀ i ∈ pathItems v.root.document.value, (i.2.member? "get").isSome → ∀ name operation,
    operation? i.2 = some (name, operation) →
      about i.1 found = if LooksPageable files v g operation then
        [diagnostic ⟨message operation, [.key "paths", i.1, .key name]⟩] else []
  elsewhere : ∀ x ∈ found, ∃ i ∈ pathItems v.root.document.value, x ∈ about i.1 found

/-- **A linter with this rule alone says of a document what is said of its path items**, one after another. -/
theorem check_alone {base : FilePath} (hbase : base.isAbsolute = true) {s : Session} (hs : s.From base) {p : FilePath}
    (h : s.graph.load s.files p = (.ok d, g)) (hl : RunsAlone l r) :
    (l.check s.files s.graph p).1 = .ok ((pathItems d.document.value).flatMap
      (said s.files (View.ofLoaded s.files g d).1 g (.ofFinding r (l.severityOf r) d.id))) := by
  obtain ⟨⟨severity, hbuild⟩, hrules, htype, henabled⟩ := hl
  obtain rfl : rule severity = r := Except.ok.inj ((build_eq severity).symm.trans hbuild)
  have hload := (hs.consistent hbase).loading s.files p
  rw [h] at hload
  have hg := hload.consistent
  have hheld := hload.holds d rfl
  have hyields := congrArg Prod.fst (hg.load_of_holds hheld s.files)
  have hsteady : ∀ r' ∈ l.rules.rules, r'.function.Steady s.files g := by
    intro r' hr'
    rw [hrules, List.mem_singleton] at hr'
    subst hr'
    exact steady_check hg
  have hactive : l.activeRules = [rule severity] := by
    have htypes : (rule severity).types.contains l.settings.type = true := by
      rcases htype with htype | htype <;> rw [htype] <;> rfl
    rw [Linter.activeRules, hrules, List.filter_singleton, htypes, henabled]
    rfl
  have hcheck : (l.check s.files s.graph p).1 = .ok (l.checkLoaded s.files d g).1 := by
    rw [Linter.check, h]
  rw [hcheck, Linter.checkLoaded_eq hg hyields hsteady, hactive, List.flatMap_singleton,
    ruleDiagnostics_eq hg (hg.hasDistinctNames hheld)]
  rfl

theorem flags_said {v : View} (hv : v.root.document.value.HasDistinctNames) (document : DocumentId) :
    Flags files v g (.ofFinding r severity document)
      ((pathItems v.root.document.value).flatMap (said files v g (.ofFinding r severity document))) := by
  have habout : ∀ i ∈ pathItems v.root.document.value, about i.1 ((pathItems v.root.document.value).flatMap
      (said files v g (.ofFinding r severity document))) = said files v g (.ofFinding r severity document) i :=
    fun i hi => filter_flatMap_of_key (nodup_pathItems hv) hi fun _ _ _ hx =>
      decide_eq_decide.mpr (prefix_iff_of_mem_said hx i.1)
  refine ⟨?flagged, ?spared, ?shadowed, ?elsewhere⟩
  case flagged =>
    intro i hi hshadow operation hget hlooks
    rw [habout i hi, said_of_looksPageable hshadow hget hlooks]
  case spared =>
    intro i hi hshadow hlooks
    rw [habout i hi, said_of_not_looksPageable hshadow hlooks]
  case shadowed =>
    intro i hi hget name operation hfirst
    rw [habout i hi, said_of_operation? hget hfirst]
  case elsewhere =>
    intro x hx
    obtain ⟨i, hi, hx⟩ := List.mem_flatMap.mp hx
    exact ⟨i, hi, (habout i hi).symm ▸ hx⟩

/-- **Where no other spelling of it stands in front, the operation under `get` is reported if and only if it looks
pageable**, once and where it stands. -/
theorem flags {base : FilePath} (hbase : base.isAbsolute = true) {s : Session} (hs : s.From base) {p : FilePath}
    (h : s.graph.load s.files p = (.ok d, g)) (hl : RunsAlone l r) :
    ∃ found, (l.check s.files s.graph p).1 = .ok found ∧
      Flags s.files (View.ofLoaded s.files g d).1 g (.ofFinding r (l.severityOf r) d.id) found := by
  have hload := (hs.consistent hbase).loading s.files p
  rw [h] at hload
  have hnames := hload.consistent.hasDistinctNames (hload.holds d rfl)
  exact ⟨_, check_alone hbase hs h hl, flags_said (v := (View.ofLoaded s.files g d).1) hnames d.id⟩

/-- The list is inherited and stands behind a reference.  A member with the name in other letters stands behind the
operation, and the operation of the other path item is marked. -/
theorem flags_of_inherited_list : ∃ l s r d g found, (⟨"/"⟩ : FilePath).isAbsolute = true ∧
    Session.From ⟨"/"⟩ s ∧ s.graph.load s.files ⟨"a.json"⟩ = (.ok d, g) ∧ RunsAlone l r ∧
      (l.check s.files s.graph ⟨"a.json"⟩).1 = .ok found ∧
      Flags s.files (View.ofLoaded s.files g d).1 g (.ofFinding r (l.severityOf r) d.id) found ∧
      (about (.key "/w") found).map Diagnostic.path = [[.key "paths", .key "/w", .key "get"]] ∧
      about (.key "/x") found = [] := by
  let files : FileSystem := ⟨[(⟨"/a.json"⟩,
    "\x7b\"paths\":\x7b\"/x\":\x7b\"get\":\x7b\"x-ms-pageable\":1\x7d\x7d," ++
      "\"/w\":\x7b\"get\":\x7b\"responses\":\x7b\"200\":" ++
        "\x7b\"schema\":\x7b\"allOf\":[\x7b\"$ref\":\"#/p\"\x7d]\x7d\x7d\x7d\x7d,\"GET\":1\x7d\x7d," ++
    "\"p\":\x7b\"properties\":\x7b\"v\":\x7b\"$ref\":\"#/l\"\x7d\x7d\x7d,\"l\":\x7b\"type\":\"array\"\x7d\x7d")],
    fun _ => "no such file"⟩
  let l : Linter := ⟨⟨[rule .warning]⟩, { Settings.default with type := .arm }⟩
  have hbase : (⟨"/"⟩ : FilePath).isAbsolute = true := by decide +kernel
  have hfrom : (⟨files, .empty ⟨"/"⟩⟩ : Session).From ⟨"/"⟩ := ⟨files, [], rfl⟩
  have hl : RunsAlone l (rule .warning) := ⟨⟨.warning, build_eq .warning⟩, rfl, .inl rfl, rfl⟩
  have hfacts : ∃ d ∈ (Graph.load files (.empty ⟨"/"⟩) ⟨"a.json"⟩).1.toOption,
      (∀ e ∈ d.references.edges, e.target.document = d.id) ∧
        ∃ i ∈ pathItems d.document.value, ∃ j ∈ pathItems d.document.value,
          i.1 = .key "/w" ∧ j.1 = .key "/x" ∧ Unshadowed i.2 ∧ Unshadowed j.2 ∧
          (∃ operation ∈ i.2.member? "get",
            LooksPageableWithin 5 files ⟨d, []⟩ (Graph.load files (.empty ⟨"/"⟩) ⟨"a.json"⟩).2 operation) ∧
          ∃ operation ∈ j.2.member? "get", (operation.member? "x-ms-pageable").isSome := by
    decide +kernel
  obtain ⟨d, hd, hown, i, hi, j, hj, hw, hx, hshadow, hshadow', ⟨operation, hget, hlooks⟩, marked, hget', hmarked⟩ :=
    hfacts
  have hload := Graph.load_eq_of_mem_toOption hd
  have hview : (View.ofLoaded files (Graph.load files (.empty ⟨"/"⟩) ⟨"a.json"⟩).2 d).1 = ⟨d, []⟩ :=
    congrArg Prod.fst (View.ofLoaded_of_own files _ hown)
  obtain ⟨found, hcheck, hflags⟩ := flags hbase hfrom hload hl
  rw [← hview] at hlooks
  have hwhere := hflags.flagged i hi hshadow operation hget hlooks.looksPageable
  have hnowhere := hflags.spared j hj hshadow' fun operation' hget'' hlooks' => by
    cases hget''.symm.trans hget'
    rw [Option.isNone_iff_eq_none.mp hlooks'.1] at hmarked
    cases hmarked
  refine ⟨l, _, _, d, _, found, hbase, hfrom, hload, hl, hcheck, hflags, ?_, hx ▸ hnowhere⟩
  rw [← hw, hwhere]
  rfl

/-- Behind another spelling of its name, an operation that looks pageable is not reported: the empty member in front of
it is looked at instead. -/
theorem not_flagged_behind_other_spelling : ∃ l s r d g i operation, (⟨"/"⟩ : FilePath).isAbsolute = true ∧
    Session.From ⟨"/"⟩ s ∧ s.graph.load s.files ⟨"a.json"⟩ = (.ok d, g) ∧ RunsAlone l r ∧
      i ∈ pathItems d.document.value ∧ i.2.member? "get" = some operation ∧
      LooksPageable s.files (View.ofLoaded s.files g d).1 g operation ∧
      (l.check s.files s.graph ⟨"a.json"⟩).1 = .ok [] := by
  let files : FileSystem := ⟨[(⟨"/a.json"⟩,
    "\x7b\"paths\":\x7b\"/w\":\x7b\"GET\":\x7b\x7d,\"get\":\x7b\"responses\":\x7b\"200\":\x7b\"schema\":" ++
      "\x7b\"properties\":\x7b\"value\":\x7b\"type\":\"array\"\x7d\x7d\x7d\x7d\x7d\x7d\x7d\x7d\x7d")],
    fun _ => "no such file"⟩
  let l : Linter := ⟨⟨[rule .warning]⟩, { Settings.default with type := .arm }⟩
  have hbase : (⟨"/"⟩ : FilePath).isAbsolute = true := by decide +kernel
  have hfrom : (⟨files, .empty ⟨"/"⟩⟩ : Session).From ⟨"/"⟩ := ⟨files, [], rfl⟩
  have hl : RunsAlone l (rule .warning) := ⟨⟨.warning, build_eq .warning⟩, rfl, .inl rfl, rfl⟩
  have hfacts : ∃ d ∈ (Graph.load files (.empty ⟨"/"⟩) ⟨"a.json"⟩).1.toOption,
      (∀ e ∈ d.references.edges, e.target.document = d.id) ∧
        (∃ i ∈ pathItems d.document.value, ∃ operation ∈ i.2.member? "get",
          LooksPageableWithin 5 files ⟨d, []⟩ (Graph.load files (.empty ⟨"/"⟩) ⟨"a.json"⟩).2 operation) ∧
        ∀ i ∈ pathItems d.document.value,
          findings files ⟨d, []⟩ (Graph.load files (.empty ⟨"/"⟩) ⟨"a.json"⟩).2 [.key "paths", i.1] i.2 = [] := by
    decide +kernel
  obtain ⟨d, hd, hown, ⟨i, hi, operation, hget, hlooks⟩, hnone⟩ := hfacts
  have hload := Graph.load_eq_of_mem_toOption hd
  have hview : (View.ofLoaded files (Graph.load files (.empty ⟨"/"⟩) ⟨"a.json"⟩).2 d).1 = ⟨d, []⟩ :=
    congrArg Prod.fst (View.ofLoaded_of_own files _ hown)
  rw [← hview] at hlooks hnone
  have hsilent : (pathItems d.document.value).flatMap
      (said files (View.ofLoaded files (Graph.load files (.empty ⟨"/"⟩) ⟨"a.json"⟩).2 d).1
        (Graph.load files (.empty ⟨"/"⟩) ⟨"a.json"⟩).2
        (.ofFinding (rule .warning) (l.severityOf (rule .warning)) d.id)) = [] := by
    rw [List.flatMap_eq_nil_iff]
    intro j hj
    rw [said, hnone j hj, List.map_nil, ite_self]
  exact ⟨l, _, _, d, _, i, operation, hbase, hfrom, hload, hl, hi, hget, hlooks.looksPageable,
    (check_alone hbase hfrom hload hl).trans (congrArg Except.ok hsilent)⟩

end

end PageableOperation

end ApiLint
