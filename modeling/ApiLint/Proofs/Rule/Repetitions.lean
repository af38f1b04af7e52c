import ApiLint.Proofs.Graph.Answers
import ApiLint.Proofs.Graph.Sessions
import ApiLint.Proofs.Rule.BodySchemas
import ApiLint.Proofs.View.Gathering
import Mathlib.Algebra.BigOperators.Group.List.Basic
import Mathlib.Algebra.GroupWithZero.Nat
import Mathlib.Data.List.Count
import Mathlib.Data.List.Nodup

/-!
# What is reported twice of the schema of a body

A schema of a body may come to one and the same parent along several ways.  Of the names that are required, those that are
there already are dropped on every way up, and so each is reported once.  Of the properties nothing is dropped: all that
the parent declares counts once for every way (`flawed_eq`), and so does what is declared below.

The declarations that a chain of names leads to are told by `declarations`.  The texts and the locations keep problems
apart (`message_inj`, `place_inj`), so a flaw is reported as often as there are declarations that have it
(`count_complaintsOf`).  This tells when something is reported twice, and that nothing else is (`nodup_check_iff`).
-/

namespace ApiLint.PatchBodyParameters

/-! ### Flaws and chains of names -/

inductive Flaw where
  | default
  | createOnly
  deriving DecidableEq

namespace Flaw

def quality : Flaw → String
  | default => "have default value"
  | createOnly => "be x-ms-mutability: [\"create\"]"

def Spoils : Flaw → Value → Prop
  | default, declared => (declared.member? "default").isSome = true
  | createOnly, declared => IsCreateOnly declared

instance decidableSpoils : (flaw : Flaw) → (declared : Value) → Decidable (flaw.Spoils declared)
  | default, declared => inferInstanceAs (Decidable ((declared.member? "default").isSome = true))
  | createOnly, declared => inferInstanceAs (Decidable (IsCreateOnly declared))

end Flaw

/-- What a chain of names leads to from a schema: the declarations of the first name among its properties, inherited ones
included, from there those of the second, and so on.  A declaration is listed once for every way that leads to it. -/
def declarations (schema : Node) : List String → List Node
  | [] => [schema]
  | name :: names => (properties schema).flatMap fun p => if p.1 = name then declarations p.2 names else []

def flawed (schema : Node) (flaw : Flaw) (names : List String) : Nat :=
  (declarations schema names).countP fun declared => flaw.Spoils declared.value

def place (location : Path) (names : List String) : Path :=
  location ++ names.flatMap fun name => [.key "properties", .key name]

/-- What is said of a flaw in the property `name` of a schema that the names `owners` lead to. -/
def complaint (location : Path) (flaw : Flaw) (owners : List String) (name : String) : Finding :=
  ⟨message flaw.quality name, place location owners⟩

theorem declarations_eq (schema : Node) (name : String) (names : List String) :
    declarations schema (name :: names) =
      ((declared schema).flatMap fun p => if p.1 = name then declarations p.2 names else []) ++
        (bases schema).flatMap fun base => declarations base (name :: names) := by
  have hinherited : ∀ base, declarations base (name :: names) = (lineage base).flatMap fun ancestor =>
      (declared ancestor).flatMap fun p => if p.1 = name then declarations p.2 names else [] :=
    fun base => by rw [declarations, properties, List.flatMap_assoc]
  simp only [hinherited]
  rw [lineage_eq, List.flatMap_cons, List.flatMap_assoc]

theorem countP_declared (flaw : Flaw) (name : String) (names : List String) (ps : List (String × Node)) :
    (ps.flatMap fun p => if p.1 = name then declarations p.2 names else []).countP
        (fun declared => flaw.Spoils declared.value) =
      (ps.map fun p => if p.1 = name then flawed p.2 flaw names else 0).sum := by
  rw [List.countP_flatMap]
  refine congrArg List.sum (List.map_congr_left fun p _ => ?_)
  rw [Function.comp_apply, apply_ite (List.countP _), List.countP_nil]
  rfl

theorem flawed_cons (schema : Node) (flaw : Flaw) (name : String) (names : List String) :
    flawed schema flaw (name :: names) =
      ((properties schema).map fun p => if p.1 = name then flawed p.2 flaw names else 0).sum := by
  rw [flawed, declarations, countP_declared]

/-- What a base declares counts as often as the base is listed. -/
theorem flawed_eq (schema : Node) (flaw : Flaw) (name : String) (names : List String) :
    flawed schema flaw (name :: names) =
      ((declared schema).map fun p => if p.1 = name then flawed p.2 flaw names else 0).sum +
        ((bases schema).map fun base => flawed base flaw (name :: names)).sum := by
  rw [flawed, declarations_eq, List.countP_append, countP_declared, List.countP_flatMap]
  rfl

theorem flawed_pos_of_declared {schema : Node} {flaw : Flaw} {p : String × Node} (hp : p ∈ declared schema)
    (hspoils : flaw.Spoils p.2.value) : 0 < flawed schema flaw [p.1] := by
  have hdeclared : p.2 ∈ declarations schema [p.1] := by
    rw [declarations_eq]
    refine List.mem_append_left _ (List.mem_flatMap.mpr ⟨p, hp, ?_⟩)
    rw [if_pos rfl]
    exact List.mem_singleton_self p.2
  exact List.countP_pos_iff.mpr ⟨p.2, hdeclared, decide_eq_true hspoils⟩

/-- Where all bases declare a flaw, it counts as often as there are bases. -/
theorem length_bases_le_flawed {schema : Node} {flaw : Flaw} {name : String} {names : List String}
    (h : ∀ base ∈ bases schema, 0 < flawed base flaw (name :: names)) :
    (bases schema).length ≤ flawed schema flaw (name :: names) := by
  have hsum := List.length_le_sum_of_one_le ((bases schema).map fun base => flawed base flaw (name :: names))
    (List.forall_mem_map.mpr h)
  rw [List.length_map] at hsum
  rw [flawed_eq]
  omega

/-! ### Problems are told apart -/

theorem place_cons (location : Path) (name : String) (names : List String) :
    place location (name :: names) = place (location ++ [.key "properties", .key name]) names := by
  simp [place]

theorem place_inj {location : Path} {names names' : List String} (h : place location names = place location names') :
    names = names' := by
  have hbelow := List.append_cancel_left h
  clear h
  induction names generalizing names' with
  | nil =>
    cases names' with
    | nil => rfl
    | cons name' names' => cases hbelow
  | cons name names ih =>
    cases names' with
    | nil => cases hbelow
    | cons name' names' =>
      simp only [List.flatMap_cons, List.cons_append, List.nil_append, List.cons.injEq, Segment.key.injEq,
        true_and] at hbelow
      rw [hbelow.1, ih hbelow.2]

/-- A message tells the quality, which ends in front of the first comma, and the name. -/
theorem message_inj {quality quality' name name' : String} (hquality : ',' ∉ quality.toList)
    (hquality' : ',' ∉ quality'.toList) (h : message quality name = message quality' name') :
    quality = quality' ∧ name = name' := by
  have hcomma : ", property:".toList = ',' :: " property:".toList := by decide
  have htext : ∀ q n : String, (message q n).toList = "Properties of a PATCH request body must not ".toList ++
      (q.toList ++ ',' :: (" property:".toList ++ (n.toList ++ ".".toList))) := by
    intro q n
    have hmessage : message q n =
      "Properties of a PATCH request body must not " ++ q ++ ", property:" ++ n ++ "." := rfl
    rw [hmessage]
    simp only [String.toList_append, hcomma, List.append_assoc, List.cons_append]
  have hlists := congrArg String.toList h
  rw [htext, htext] at hlists
  have hbehind := List.append_cancel_left hlists
  -- a name may have commas in it, a quality has none
  have hpieces := congrArg (List.splitOn ',') hbehind
  rw [List.splitOn_append_cons_self, List.splitOn_append_cons_self, List.splitOn_eq_singleton hquality,
    List.splitOn_eq_singleton hquality'] at hpieces
  have hqualities : quality.toList = quality'.toList := (List.cons.inj hpieces).1
  rw [hqualities] at hbehind
  have hnames := (List.cons.inj (List.append_cancel_left hbehind)).2
  exact ⟨String.toList_inj.mp hqualities,
    String.toList_inj.mp (List.append_cancel_right (List.append_cancel_left hnames))⟩

theorem Flaw.quality_inj {flaw flaw' : Flaw} (h : flaw.quality = flaw'.quality) : flaw = flaw' := by
  revert h
  cases flaw <;> cases flaw' <;> decide

theorem Flaw.not_mem_quality (flaw : Flaw) : ',' ∉ flaw.quality.toList := by
  cases flaw <;> decide

theorem complaint_inj {location : Path} {flaw flaw' : Flaw} {owners owners' : List String} {name name' : String}
    (h : complaint location flaw owners name = complaint location flaw' owners' name') :
    flaw = flaw' ∧ owners = owners' ∧ name = name' := by
  obtain ⟨hquality, hname⟩ :=
    message_inj flaw.not_mem_quality flaw'.not_mem_quality (congrArg Finding.message h)
  exact ⟨Flaw.quality_inj hquality, place_inj (congrArg Finding.location h), hname⟩

theorem complaint_cons (location : Path) (flaw : Flaw) (owner : String) (owners : List String) (name : String) :
    complaint location flaw (owner :: owners) name
      = complaint (location ++ [.key "properties", .key owner]) flaw owners name := by
  rw [complaint, place_cons]
  rfl

/-- That a name is required is no complaint of a flaw. -/
theorem message_required_ne (flaw : Flaw) (name name' : String) :
    message "be required" name ≠ message flaw.quality name' := by
  intro h
  have hquality := (message_inj (by decide) flaw.not_mem_quality h).1
  revert hquality
  cases flaw <;> decide

/-! ### How often a problem is reported -/

/-- Of a property there is one complaint for each of its flaws. -/
theorem complaints_eq_flaws (location : Path) (p : String × Node) :
    complaints location p = ([Flaw.default, .createOnly].filter fun flaw => flaw.Spoils p.2.value).map
      fun flaw => complaint location flaw [] p.1 := by
  have hplace : place location [] = location := List.append_nil location
  rw [complaints_eq]
  by_cases hdefault : (p.2.value.member? "default").isSome = true <;>
    by_cases hcreate : IsCreateOnly p.2.value <;>
    simp [Flaw.Spoils, complaint, hplace, Flaw.quality, hdefault, hcreate]

theorem eq_complaint_of_mem {location : Path} {p : String × Node} {f : Finding} (hf : f ∈ complaints location p) :
    ∃ flaw, f = complaint location flaw [] p.1 := by
  rw [complaints_eq_flaws] at hf
  obtain ⟨flaw, -, rfl⟩ := List.mem_map.mp hf
  exact ⟨flaw, rfl⟩

theorem mem_complaintsOf {location : Path} {schema : Node} {f : Finding}
    (hf : f ∈ complaintsOf (visits location schema)) :
    ∃ flaw owners name, f = complaint location flaw owners name := by
  rw [complaintsOf_visits] at hf
  rcases List.mem_append.mp hf with hf | hf
  · obtain ⟨p, -, hf⟩ := List.mem_flatMap.mp hf
    obtain ⟨flaw, rfl⟩ := eq_complaint_of_mem hf
    exact ⟨flaw, [], p.1, rfl⟩
  · obtain ⟨p, hp, hf⟩ := List.mem_flatMap.mp hf
    obtain ⟨flaw, owners, name, rfl⟩ := mem_complaintsOf hf
    exact ⟨flaw, p.1 :: owners, name, (complaint_cons ..).symm⟩
termination_by schema
decreasing_by exact measure_lt_of_mem_properties hp

section

variable {location : Path} {p : String × Node} {flaw : Flaw} {owners : List String} {name : String}

/-- What is said of a property itself. -/
theorem owners_of_mem_complaints (h : complaint location flaw owners name ∈ complaints location p) :
    owners = [] ∧ name = p.1 := by
  obtain ⟨_, hsame⟩ := eq_complaint_of_mem h
  exact (complaint_inj hsame).2

/-- What is said below a property has its name in front. -/
theorem owners_of_mem_below
    (h : complaint location flaw owners name ∈ complaintsOf (visits (location ++ [.key "properties", .key p.1]) p.2)) :
    ∃ rest, owners = p.1 :: rest := by
  obtain ⟨_, rest, _, hsame⟩ := mem_complaintsOf h
  rw [← complaint_cons] at hsame
  exact ⟨rest, (complaint_inj hsame).2.1⟩

end

theorem count_complaints (location : Path) (flaw : Flaw) (name : String) (p : String × Node) :
    (complaints location p).count (complaint location flaw [] name) =
      if p.1 = name then flawed p.2 flaw [] else 0 := by
  by_cases hname : p.1 = name
  · subst hname
    have hinjective : Function.Injective fun flaw => complaint location flaw [] p.1 :=
      fun _ _ h => (complaint_inj h).1
    have hnodup : ([Flaw.default, .createOnly].filter fun flaw => flaw.Spoils p.2.value).Nodup :=
      List.Nodup.filter _ (by decide)
    have hall : flaw ∈ [Flaw.default, .createOnly] := by cases flaw <;> decide
    rw [if_pos rfl, complaints_eq_flaws, List.count_map_of_injective _ _ hinjective, hnodup.count, flawed, declarations,
      List.countP_singleton]
    simp only [List.mem_filter, hall, true_and]
  · rw [if_neg hname, List.count_eq_zero]
    exact fun hmem => hname (owners_of_mem_complaints hmem).2.symm

/-- **A flaw is reported as often as it is declared.** -/
theorem count_complaintsOf (location : Path) (schema : Node) (flaw : Flaw) (owners : List String) (name : String) :
    (complaintsOf (visits location schema)).count (complaint location flaw owners name) =
      flawed schema flaw (owners ++ [name]) := by
  -- by induction on the names: the first of them tells below which properties the complaint is
  induction owners generalizing location schema with
  | nil =>
    have hbelow : ((properties schema).flatMap fun p => complaintsOf (visits (location ++ [.key "properties", .key p.1]) p.2)).count
        (complaint location flaw [] name) = 0 := by
      rw [List.count_eq_zero]
      intro hmem
      obtain ⟨p, -, hmem⟩ := List.mem_flatMap.mp hmem
      obtain ⟨_, hne⟩ := owners_of_mem_below hmem
      cases hne
    rw [complaintsOf_visits, List.count_append, hbelow, Nat.add_zero, List.count_flatMap, List.nil_append, flawed_cons]
    exact congrArg List.sum (List.map_congr_left fun p _ => count_complaints location flaw name p)
  | cons owner owners ih =>
    have hhere : ((properties schema).flatMap (complaints location)).count
        (complaint location flaw (owner :: owners) name) = 0 := by
      rw [List.count_eq_zero]
      intro hmem
      obtain ⟨p, -, hmem⟩ := List.mem_flatMap.mp hmem
      cases (owners_of_mem_complaints hmem).1
    rw [complaintsOf_visits, List.count_append, hhere, Nat.zero_add, List.count_flatMap, List.cons_append, flawed_cons]
    refine congrArg List.sum (List.map_congr_left fun p _ => ?_)
    rw [Function.comp_apply]
    by_cases howner : p.1 = owner
    · subst howner
      rw [if_pos rfl, complaint_cons, ih]
    · rw [if_neg howner, List.count_eq_zero]
      intro hmem
      obtain ⟨_, heq⟩ := owners_of_mem_below hmem
      exact howner (List.cons.inj heq).1.symm

theorem nodup_complaintsOf_iff (location : Path) (schema : Node) :
    (complaintsOf (visits location schema)).Nodup ↔
      ∀ flaw owners name, flawed schema flaw (owners ++ [name]) ≤ 1 := by
  rw [List.nodup_iff_count_le_one]
  constructor
  · intro h flaw owners name
    rw [← count_complaintsOf location]
    exact h _
  · intro h f
    by_cases hf : f ∈ complaintsOf (visits location schema)
    · obtain ⟨flaw, owners, name, rfl⟩ := mem_complaintsOf hf
      rw [count_complaintsOf]
      exact h flaw owners name
    · rw [List.count_eq_zero.mpr hf]
      exact Nat.zero_le 1

/-- Names that several schemas of a lineage list are required once. -/
theorem nodup_required_iff (schema : Node) : (required schema).Nodup ↔ (ownRequired schema.value).Nodup := by
  rw [ownRequired_eq, required, List.nodup_append', and_iff_left]
  refine ⟨nodup_eraseDups _, List.disjoint_right.mpr fun name hname => ?_⟩
  simpa using (List.mem_filter.mp (List.mem_eraseDups.mp hname)).2

theorem findings_start (location : Path) (schema : Node) :
    (Walk.start location schema).findings = report location schema := by
  rw [(Walk.yields_due _).2, Walk.due_start]

/-- **Nothing is reported twice if and only if the schema itself lists no name twice as required, and no flaw is declared
twice under one chain of names.** -/
theorem nodup_check_iff (c : Context) (options : Value) (schema : Node) (g : Graph) :
    ∃ found : List Finding, check c options schema g = (found.map .ok, g) ∧
      (found.Nodup ↔ (ownRequired schema.value).Nodup ∧
        ∀ flaw owners name, flawed schema flaw (owners ++ [name]) ≤ 1) := by
  refine ⟨report c.location schema, by rw [check, findings_start], ?_⟩
  have hinjective : Function.Injective fun name : String => (⟨message "be required" name, c.location⟩ : Finding) :=
    fun _ _ h => (message_inj (by decide) (by decide) (congrArg Finding.message h)).2
  have hdisjoint : ((required schema).map fun name => (⟨message "be required" name, c.location⟩ : Finding)).Disjoint
      (complaintsOf (visits c.location schema)) := by
    refine List.disjoint_left.mpr fun f hrequired hcomplaint => ?_
    obtain ⟨name, -, rfl⟩ := List.mem_map.mp hrequired
    obtain ⟨flaw, owners, name', hsame⟩ := mem_complaintsOf hcomplaint
    exact message_required_ne flaw name name' (congrArg Finding.message hsame)
  rw [report_eq, List.nodup_append', List.nodup_map_iff hinjective, nodup_required_iff, nodup_complaintsOf_iff,
    and_iff_left hdisjoint]

/-- The body inherits from two schemas, and both of these from one that requires a name and declares a default for it.  No
list of required names repeats one, and yet the default is reported twice. -/
theorem reported_twice_of_diamond : ∃ (s : Session) (d : Loaded) (g : Graph) (p : Path) (schema : Node)
    (found : List Finding), s.From ⟨"/"⟩ ∧ s.graph.load s.files ⟨"a.json"⟩ = (.ok d, g) ∧
      (∀ n ∈ d.document.value.nodes, (ownRequired n.2).Nodup) ∧
      p = [.key "paths", .key "/w", .key "patch", .key "parameters", .index 0, .key "schema"] ∧
      (View.ofLoaded s.files g d).1.nodeAt? p = some schema ∧
      check ⟨s.files, (View.ofLoaded s.files g d).1, (View.ofLoaded s.files g d).1.node, p⟩ .null schema g
        = (found.map .ok, g) ∧ 2 ≤ found.count (complaint p .default [] "x") ∧ ¬ found.Nodup := by
  let files : FileSystem := ⟨[(⟨"/a.json"⟩,
    "\x7b\"paths\":\x7b\"/w\":\x7b\"patch\":\x7b\"parameters\":" ++
      "[\x7b\"in\":\"body\",\"schema\":\x7b\"$ref\":\"#/a\"\x7d\x7d]\x7d\x7d\x7d," ++
    "\"a\":\x7b\"allOf\":[\x7b\"$ref\":\"#/b\"\x7d,\x7b\"$ref\":\"#/c\"\x7d]\x7d," ++
    "\"b\":\x7b\"allOf\":[\x7b\"$ref\":\"#/d\"\x7d]\x7d,\"c\":\x7b\"allOf\":[\x7b\"$ref\":\"#/d\"\x7d]\x7d," ++
    "\"d\":\x7b\"required\":[\"x\"],\"properties\":\x7b\"x\":\x7b\"default\":1\x7d\x7d\x7d\x7d")],
    fun _ => "no such file"⟩
  let p : Path := [.key "paths", .key "/w", .key "patch", .key "parameters", .index 0, .key "schema"]
  have hfrom : (⟨files, .empty ⟨"/"⟩⟩ : Session).From ⟨"/"⟩ := ⟨files, [], rfl⟩
  have hfacts : ∃ d ∈ (Graph.load files (.empty ⟨"/"⟩) ⟨"a.json"⟩).1.toOption,
      (∀ e ∈ d.references.edges, e.target.document = d.id) ∧
        (∀ n ∈ d.document.value.nodes, (ownRequired n.2).Nodup) ∧
        ∃ schema ∈ (View.mk d []).nodeAt? p, (bases schema).length = 2 ∧
          ∀ base ∈ bases schema, (bases base).length = 1 ∧
            ∀ top ∈ bases base, ∃ property ∈ declared top,
              property.1 = "x" ∧ Flaw.default.Spoils property.2.value := by
    decide +kernel
  obtain ⟨d, hd, hown, hrequired, schema, hschema, htwo, hbases⟩ := hfacts
  have hload := Graph.load_eq_of_mem_toOption hd
  have hview : (View.ofLoaded files (Graph.load files (.empty ⟨"/"⟩) ⟨"a.json"⟩).2 d).1 = ⟨d, []⟩ :=
    congrArg Prod.fst (View.ofLoaded_of_own files _ hown)
  have hdeclared : ∀ base ∈ bases schema, 0 < flawed base .default ["x"] := by
    intro base hbase
    obtain ⟨hone, htops⟩ := hbases base hbase
    refine Nat.lt_of_lt_of_le (hone ▸ Nat.one_pos) (length_bases_le_flawed fun top htop => ?_)
    obtain ⟨declared, hmem, hx, hspoils⟩ := htops top htop
    exact hx ▸ flawed_pos_of_declared hmem hspoils
  have htwice : 2 ≤ flawed schema .default ["x"] := htwo ▸ length_bases_le_flawed hdeclared
  have htold : 2 ≤ (report p schema).count (complaint p .default [] "x") := by
    rw [report, List.count_append, count_complaintsOf]
    exact Nat.le_add_left_of_le htwice
  refine ⟨_, d, _, p, schema, report p schema, hfrom, hload, hrequired, rfl, hview ▸ hschema, ?_, htold, ?_⟩
  · rw [check, findings_start]
  · intro hnodup
    have honce := List.nodup_iff_count_le_one.mp hnodup (complaint p .default [] "x")
    omega

end ApiLint.PatchBodyParameters
