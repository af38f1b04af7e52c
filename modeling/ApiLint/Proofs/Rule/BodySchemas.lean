import ApiLint.Proofs.FirstOccurrences
import ApiLint.Proofs.Graph.Answers
import ApiLint.Proofs.Traversal
import ApiLint.Proofs.View.Gathering
import ApiLint.Rule.PatchBodyParameters

/-!
# What is reported of the schema of a body

The schema of a PATCH body is gone through by a walk that keeps a stack of schemas and a queue of findings, and looks for
the next schema only when the queue has run dry.  What it comes to is said here without either of them, and from what
stands in the schemas: `bases`, `declared` and `listed` read them member by member.  First come the names that are
required, of the schema and of all that it inherits from.  Then come the schemas in pre-order, and of each of them the
properties that must not be as they are, its own ones and those that it inherits (`report`).

What a walk has still to say is `Walk.due`: the findings at hand, and behind them what is to be said of the schemas on
the stack, one after another.  A visit leaves it as it is, for the properties of a schema come to stand on the stack in
their order, and every finding that is handed out is taken off its front (`Walk.due_of_next?`).  So the walk ends, and it
has handed out the report (`check_reports`).  Where schemas are not deep, the report can be computed (`report_of_within`).
-/

namespace ApiLint.PatchBodyParameters

/-! ### What a schema says itself -/

def bases (schema : Node) : List Node :=
  match schema.child? (.key "allOf") with
  | none => []
  | some list => list.children.filterMap fun
    | (.index _, base) => some base
    | (.key _, _) => none

/-- The members of `properties` that are objects. -/
def declared (schema : Node) : List (String × Node) :=
  match schema.child? (.key "properties") with
  | none => []
  | some list => list.children.filterMap fun
    | (.key name, property) =>
      match property.value with
      | .object _ => some (name, property)
      | _ => none
    | (.index _, _) => none

def listed (schema : Node) : List String :=
  match schema.value.get? [.key "required"] with
  | some (.array names) => names.filterMap fun
    | .string name => some name
    | _ => none
  | _ => []

/-- The list of mutabilities has `create` in it, and not `update`. -/
def IsCreateOnly (property : Value) : Prop :=
  ∃ moments, property.member? "x-ms-mutability" = some (.array moments) ∧ .string "create" ∈ moments ∧
    .string "update" ∉ moments

theorem parents_eq (schema : Node) : parents schema = bases schema := by
  rw [parents, bases]
  cases schema.child? (.key "allOf") with
  | none => rfl
  | some list =>
    obtain ⟨value, origin⟩ := list
    cases value with
    | array items =>
      simp [Node.elements, Node.children, Value.children, Value.items?, List.filterMap_map, Function.comp_def]
    | object members =>
      simp [Node.elements, Node.children, Value.children, Value.items?, List.filterMap_map, Function.comp_def]
    | _ => rfl

theorem ownProperties_eq (schema : Node) : ownProperties schema = declared schema := by
  rw [ownProperties, declared]
  cases schema.child? (.key "properties") with
  | none => rfl
  | some list =>
    obtain ⟨value, origin⟩ := list
    cases value with
    | object members =>
      simp only [Node.members, Node.children, Value.children, Value.members?, Option.map_some, Option.getD_some,
        List.map_map, List.filterMap_map, List.filter_map, ← List.filterMap_eq_filter, List.map_filterMap]
      refine List.filterMap_congr fun m _ => ?_
      simp only [Function.comp_apply, Option.guard]
      split <;> split <;> simp_all [Value.isObject]
    | array items =>
      simp [Node.members, Node.children, Value.children, Value.members?, List.filterMap_map, Function.comp_def]
    | _ => rfl

theorem ownRequired_eq (schema : Node) : ownRequired schema.value = listed schema := by
  have hget : schema.value.get? [.key "required"] = schema.value.member? "required" := Option.bind_fun_some _
  rw [ownRequired, listed, hget]
  cases schema.value.member? "required" with
  | none => rfl
  | some w =>
    cases w with
    | array names => rfl
    | _ => rfl

theorem isCreateOnly_iff (property : Value) : isCreateOnly property = true ↔ IsCreateOnly property := by
  have hmem : ∀ (moments : List Value) (text : String),
      text ∈ moments.filterMap Value.string? ↔ Value.string text ∈ moments := by
    intro moments text
    rw [List.mem_filterMap]
    constructor
    · rintro ⟨w, hw, htext⟩
      cases w with
      | string t => exact Option.some.inj htext ▸ hw
      | _ => cases htext
    · exact fun h => ⟨_, h, rfl⟩
  rw [isCreateOnly, IsCreateOnly]
  cases hmoments : property.member? "x-ms-mutability" with
  | none => simp
  | some w =>
    cases w with
    | array moments => simp [Value.items?, hmem]
    | _ => simp [Value.items?]

instance decidableIsCreateOnly (property : Value) : Decidable (IsCreateOnly property) :=
  decidable_of_iff _ (isCreateOnly_iff property)

/-! ### What is to be reported -/

theorem measure_lt_of_mem_bases {schema base : Node} (h : base ∈ bases schema) :
    Node.Less base.measure schema.measure :=
  measure_lt_of_mem_parents (parents_eq schema ▸ h)

/-- A schema and what it inherits from, each in front of its own bases. -/
def lineage (schema : Node) : List Node :=
  schema :: (bases schema).attach.flatMap fun base => lineage base.1
termination_by schema
decreasing_by exact measure_lt_of_mem_bases base.2

theorem lineage_eq (schema : Node) : lineage schema = schema :: (bases schema).flatMap lineage := by
  rw [lineage, List.flatMap_subtype (g := lineage) (fun _ _ => rfl), List.unattach_attach]

/-- The names that a schema lists as required, and those that it inherits and does not list, each of these once. -/
def required (schema : Node) : List String :=
  listed schema ++
    ((((bases schema).flatMap lineage).flatMap listed).filter fun name => name ∉ listed schema).eraseDups

/-- The properties that are objects, its own ones first and then those that a schema inherits. -/
def properties (schema : Node) : List (String × Node) :=
  (lineage schema).flatMap declared

def complaints (location : Path) (p : String × Node) : List Finding :=
  (if (p.2.value.member? "default").isSome then
    [⟨"Properties of a PATCH request body must not have default value, property:" ++ p.1 ++ ".", location⟩] else []) ++
    if IsCreateOnly p.2.value then
      [⟨"Properties of a PATCH request body must not be x-ms-mutability: [\"create\"], property:" ++ p.1 ++ ".",
        location⟩] else []

theorem properties_eq (schema : Node) : effectiveProperties schema = properties schema := by
  rw [effectiveProperties, properties, lineage_eq, List.flatMap_cons, List.flatMap_assoc, ownProperties_eq,
    List.flatMap_subtype (g := effectiveProperties) (fun _ _ => rfl), List.unattach_attach, parents_eq]
  congr 1
  exact List.flatMap_congr fun base hbase => properties_eq base
termination_by schema
decreasing_by exact measure_lt_of_mem_bases hbase

theorem measure_lt_of_mem_properties {schema : Node} {p : String × Node} (h : p ∈ properties schema) :
    Node.Less p.2.measure schema.measure := by
  rw [← properties_eq] at h
  exact measure_lt_of_mem_effectiveProperties h

/-- A schema at `location` and the schemas below it, each with its location, a schema in front of its properties. -/
def visits (location : Path) (schema : Node) : List (Path × Node) :=
  (location, schema) ::
    (properties schema).attach.flatMap fun p => visits (location ++ [.key "properties", .key p.1.1]) p.1.2
termination_by schema
decreasing_by exact measure_lt_of_mem_properties p.2

theorem visits_eq (location : Path) (schema : Node) :
    visits location schema = (location, schema) ::
      (properties schema).flatMap fun p => visits (location ++ [.key "properties", .key p.1]) p.2 := by
  rw [visits,
    List.flatMap_subtype (g := fun p => visits (location ++ [.key "properties", .key p.1]) p.2) (fun _ _ => rfl),
    List.unattach_attach]

def complaintsOf (visited : List (Path × Node)) : List Finding :=
  visited.flatMap fun v => (properties v.2).flatMap (complaints v.1)

/-- All that is to be said of the schema of a body. -/
def report (location : Path) (schema : Node) : List Finding :=
  (required schema).map (fun name =>
      ⟨"Properties of a PATCH request body must not be required, property:" ++ name ++ ".", location⟩) ++
    complaintsOf (visits location schema)

/-! ### Required names -/

/-- Of the names that a schema requires, the first occurrences are those of the names listed in its lineage. -/
theorem eraseDups_requiredNames (schema : Node) :
    (requiredNames schema).eraseDups = ((lineage schema).flatMap listed).eraseDups := by
  have hbases : ((bases schema).flatMap requiredNames).eraseDups
      = ((bases schema).flatMap fun base => (lineage base).flatMap listed).eraseDups :=
    eraseDups_flatMap_congr fun base hbase => eraseDups_requiredNames base
  rw [requiredNames, List.flatMap_subtype (g := requiredNames) (fun _ _ => rfl), List.unattach_attach, parents_eq,
    ownRequired_eq]
  refine (eraseDups_foldl_unless_mem _ _).trans ?_
  rw [lineage_eq, List.flatMap_cons, List.flatMap_assoc]
  exact eraseDups_append_congr rfl hbases
termination_by schema
decreasing_by exact measure_lt_of_mem_bases hbase

theorem requiredNames_eq (schema : Node) : requiredNames schema = required schema := by
  have hbases : ((bases schema).flatMap requiredNames).eraseDups
      = (((bases schema).flatMap lineage).flatMap listed).eraseDups := by
    rw [List.flatMap_assoc]
    exact eraseDups_flatMap_congr fun base _ => eraseDups_requiredNames base
  rw [requiredNames, List.flatMap_subtype (g := requiredNames) (fun _ _ => rfl), List.unattach_attach, parents_eq,
    ownRequired_eq]
  refine (foldl_unless_mem _ _).trans ?_
  rw [required, eraseDups_filter, eraseDups_filter, hbases]

/-! ### Walks -/

theorem message_eq {quality text : String}
    (h : "Properties of a PATCH request body must not " ++ quality ++ ", property:" = text) (name : String) :
    message quality name = text ++ name ++ "." := by
  rw [← h]
  rfl

theorem report_eq (location : Path) (schema : Node) :
    report location schema = (required schema).map (fun name => ⟨message "be required" name, location⟩) ++
      complaintsOf (visits location schema) := by
  have hmessage : ∀ name, message "be required" name
      = "Properties of a PATCH request body must not be required, property:" ++ name ++ "." :=
    fun name => message_eq rfl name
  simp only [report, hmessage]

theorem propertyLocation_eq (location : Path) (name : String) :
    propertyLocation location name = location ++ [.key "properties", .key name] := by
  rw [propertyLocation, Path.child_eq, Path.child_eq, List.append_assoc, List.singleton_append]

theorem complaints_eq (location : Path) (p : String × Node) :
    complaints location p =
      (if (p.2.value.member? "default").isSome then [⟨message "have default value" p.1, location⟩] else []) ++
        if IsCreateOnly p.2.value then [⟨message "be x-ms-mutability: [\"create\"]" p.1, location⟩] else [] := by
  rw [complaints, message_eq rfl, message_eq rfl]
  rfl

theorem propertyFindings_eq (location : Path) (p : String × Node) :
    propertyFindings location p.1 p.2.value = complaints location p := by
  rw [propertyFindings, complaints_eq]
  congr 1
  exact if_congr (isCreateOnly_iff p.2.value) rfl rfl

theorem complaintsOf_visits (location : Path) (schema : Node) :
    complaintsOf (visits location schema) = (properties schema).flatMap (complaints location) ++
      (properties schema).flatMap fun p => complaintsOf (visits (location ++ [.key "properties", .key p.1]) p.2) := by
  rw [visits_eq, complaintsOf, List.flatMap_cons, List.flatMap_assoc]
  rfl

namespace Walk

/-- What a walk has still to say. -/
def due (w : Walk) : List Finding :=
  w.pending ++ w.stack.flatMap fun n => complaintsOf (visits n.2 n.1)

/-- Handing out one finding after another comes to the given ones and then ends. -/
inductive Yields : Walk → List Finding → Prop
  | ends {w : Walk} : w.next? = none → Yields w []
  | yields {w rest : Walk} {finding : Finding} {more : List Finding} : w.next? = some (finding, rest) →
    Yields rest more → Yields w (finding :: more)

/-- **Visiting the schema on top of the stack leaves what is due as it is.** -/
theorem due_visit (stack : List (Node × Path)) (schema : Node) (location : Path) :
    (visit ⟨[], stack⟩ schema location).due = due ⟨[], (schema, location) :: stack⟩ := by
  have hpending : (visit ⟨[], stack⟩ schema location).pending = (properties schema).flatMap (complaints location) := by
    rw [visit, List.nil_append, properties_eq]
    exact List.flatMap_congr fun p _ => propertyFindings_eq location p
  have hbelow : (visit ⟨[], stack⟩ schema location).stack
      = (properties schema).map (fun p => (p.2, location ++ [.key "properties", .key p.1])) ++ stack := by
    simp only [stack_visit, properties_eq, propertyLocation_eq]
  rw [due, hpending, hbelow, List.flatMap_append, List.flatMap_map, ← List.append_assoc, ← complaintsOf_visits]
  rfl

theorem due_of_next?_none {w : Walk} (h : w.next? = none) : w.due = [] := by
  fun_induction next? w with
  | case1 => cases h
  | case2 => rfl
  | case3 schema location stack ih => rw [← due_visit, ih h]

/-- **The next finding is the first of those that are due.** -/
theorem due_of_next? {w rest : Walk} {finding : Finding} (h : w.next? = some (finding, rest)) :
    w.due = finding :: rest.due := by
  fun_induction next? w with
  | case1 finding' pending stack =>
    cases h
    rfl
  | case2 => cases h
  | case3 schema location stack ih => rw [← due_visit, ih h]

/-- Every walk ends, and it hands out what was due. -/
theorem yields_due (w : Walk) : w.Yields w.due ∧ w.findings = w.due := by
  fun_induction findings w with
  | case1 w hnone =>
    rw [due_of_next?_none hnone]
    exact ⟨.ends hnone, rfl⟩
  | case2 w finding rest hnext ih =>
    rw [due_of_next? hnext, ih.2]
    exact ⟨.yields hnext ih.1, rfl⟩

theorem due_start (location : Path) (schema : Node) : (start location schema).due = report location schema := by
  rw [due, start, List.flatMap_singleton, requiredNames_eq, report_eq]

end Walk

/-! ### Reports of schemas that are not deep -/

/-- `lineage`, for schemas that inherit over less than `depth` levels. -/
def lineageWithin : Nat → Node → Option (List Node)
  | 0, _ => none
  | depth + 1, schema => ((bases schema).mapM (lineageWithin depth)).map fun above => schema :: above.flatten

/-- What is said of the schemas from one on, where there are less than `depth` levels of them. -/
def complaintsWithin : Nat → Path → Node → Option (List Finding)
  | 0, _, _ => none
  | depth + 1, location, schema => do
    let own := (← lineageWithin depth schema).flatMap declared
    let below ← own.mapM fun p => complaintsWithin depth (location ++ [.key "properties", .key p.1]) p.2
    return own.flatMap (complaints location) ++ below.flatten

theorem lineage_of_within {depth : Nat} {schema : Node} {nodes : List Node}
    (h : lineageWithin depth schema = some nodes) : lineage schema = nodes := by
  induction depth generalizing schema nodes with
  | zero => cases h
  | succ depth ih =>
    obtain ⟨above, habove, rfl⟩ := Option.map_eq_some_iff.mp h
    rw [lineage_eq, List.flatMap_def, map_of_mapM (fun _ _ hbase => ih hbase) habove]

theorem complaintsOf_of_within {depth : Nat} {location : Path} {schema : Node} {found : List Finding}
    (h : complaintsWithin depth location schema = some found) : complaintsOf (visits location schema) = found := by
  induction depth generalizing location schema found with
  | zero => cases h
  | succ depth ih =>
    obtain ⟨nodes, hnodes, h⟩ := Option.bind_eq_some_iff.mp h
    obtain ⟨below, hbelow, h⟩ := Option.bind_eq_some_iff.mp h
    cases h
    rw [complaintsOf_visits, properties, lineage_of_within hnodes, List.flatMap_def (f := fun p => complaintsOf _),
      map_of_mapM (fun _ _ hp => ih hp) hbelow]

def reportWithin (depth : Nat) (location : Path) (schema : Node) : Option (List Finding) := do
  let inherited := (← lineageWithin depth schema).tail.flatMap listed
  let names := listed schema ++ (inherited.filter fun name => name ∉ listed schema).eraseDups
  return names.map (fun name =>
      ⟨"Properties of a PATCH request body must not be required, property:" ++ name ++ ".", location⟩) ++
    (← complaintsWithin depth location schema)

theorem report_of_within {depth : Nat} {location : Path} {schema : Node} {found : List Finding}
    (h : reportWithin depth location schema = some found) : report location schema = found := by
  obtain ⟨nodes, hnodes, h⟩ := Option.bind_eq_some_iff.mp h
  obtain ⟨below, hbelow, h⟩ := Option.bind_eq_some_iff.mp h
  cases h
  have hlineage := lineage_of_within hnodes
  rw [lineage_eq] at hlineage
  rw [report, required, complaintsOf_of_within hbelow, ← hlineage]
  rfl

/-! ### The report is handed out -/

/-- **The check of the schema of a body hands out the report and ends**, whatever the schema leads to. -/
theorem check_reports (c : Context) (options : Value) (schema : Node) (g : Graph) :
    (Walk.start c.location schema).Yields (report c.location schema) ∧
      check c options schema g = ((report c.location schema).map .ok, g) := by
  obtain ⟨hyields, hfindings⟩ := (Walk.start c.location schema).yields_due
  rw [Walk.due_start] at hyields hfindings
  exact ⟨hyields, by rw [check, hfindings]⟩

/-- The body inherits twice from one schema, and a property of it has the body itself as a property. -/
theorem check_reports_of_recursive_model : ∃ (files : FileSystem) (d : Loaded) (g : Graph) (p : Path) (schema : Node)
    (found : List Finding), Graph.load files (.empty ⟨"/"⟩) ⟨"a.json"⟩ = (.ok d, g) ∧
      p = [.key "paths", .key "/w", .key "patch", .key "parameters", .index 0, .key "schema"] ∧
      (View.ofLoaded files g d).1.nodeAt? p = some schema ∧
      found.map Finding.message = [
        "Properties of a PATCH request body must not be required, property:x.",
        "Properties of a PATCH request body must not be required, property:z.",
        "Properties of a PATCH request body must not have default value, property:x.",
        "Properties of a PATCH request body must not be x-ms-mutability: [\"create\"], property:x.",
        "Properties of a PATCH request body must not have default value, property:x.",
        "Properties of a PATCH request body must not be x-ms-mutability: [\"create\"], property:x.",
        "Properties of a PATCH request body must not have default value, property:y."] ∧
      found.map Finding.location = [p, p, p, p, p, p, p ++ [.key "properties", .key "n"]] ∧
      (Walk.start p schema).Yields found ∧
      check ⟨files, (View.ofLoaded files g d).1, (View.ofLoaded files g d).1.node, p⟩ .null schema g
        = (found.map .ok, g) := by
  let files : FileSystem := ⟨[(⟨"/a.json"⟩,
    "\x7b\"paths\":\x7b\"/w\":\x7b\"patch\":\x7b\"parameters\":" ++
      "[\x7b\"schema\":\x7b\"$ref\":\"#/a\"\x7d\x7d]\x7d\x7d\x7d," ++
    "\"a\":\x7b\"required\":[\"x\"],\"allOf\":[\x7b\"$ref\":\"#/b\"\x7d,\x7b\"$ref\":\"#/b\"\x7d]," ++
      "\"properties\":\x7b\"n\":\x7b\"properties\":" ++
        "\x7b\"y\":\x7b\"default\":0\x7d,\"a\":\x7b\"$ref\":\"#/a\"\x7d\x7d\x7d\x7d\x7d," ++
    "\"b\":\x7b\"required\":[\"x\",\"z\"]," ++
      "\"properties\":\x7b\"x\":\x7b\"default\":1,\"x-ms-mutability\":[\"create\"]\x7d,\"w\":1\x7d\x7d\x7d")],
    fun _ => "no such file"⟩
  let p : Path := [.key "paths", .key "/w", .key "patch", .key "parameters", .index 0, .key "schema"]
  have hfacts : ∃ d ∈ (Graph.load files (.empty ⟨"/"⟩) ⟨"a.json"⟩).1.toOption,
      (∀ e ∈ d.references.edges, e.target.document = d.id) ∧
        ∃ schema ∈ (View.mk d []).nodeAt? p, ∃ found ∈ reportWithin 4 p schema,
          found.map Finding.message = [
            "Properties of a PATCH request body must not be required, property:x.",
            "Properties of a PATCH request body must not be required, property:z.",
            "Properties of a PATCH request body must not have default value, property:x.",
            "Properties of a PATCH request body must not be x-ms-mutability: [\"create\"], property:x.",
            "Properties of a PATCH request body must not have default value, property:x.",
            "Properties of a PATCH request body must not be x-ms-mutability: [\"create\"], property:x.",
            "Properties of a PATCH request body must not have default value, property:y."] ∧
          found.map Finding.location = [p, p, p, p, p, p, p ++ [.key "properties", .key "n"]] := by
    decide +kernel
  obtain ⟨d, hd, hown, schema, hschema, found, hfound, hmessages, hlocations⟩ := hfacts
  let g := (Graph.load files (.empty ⟨"/"⟩) ⟨"a.json"⟩).2
  have hview : (View.ofLoaded files g d).1 = ⟨d, []⟩ := congrArg Prod.fst (View.ofLoaded_of_own files g hown)
  have hreports := check_reports ⟨files, (View.ofLoaded files g d).1, (View.ofLoaded files g d).1.node, p⟩ .null schema g
  rw [show report _ schema = found from report_of_within hfound] at hreports
  exact ⟨files, d, g, p, schema, found, Graph.load_eq_of_mem_toOption hd, rfl, hview ▸ hschema, hmessages, hlocations,
    hreports⟩

end ApiLint.PatchBodyParameters
