import ApiLint.Proofs.Lint.Outcomes
import ApiLint.Proofs.Lint.Targets

/-!
# Records lead back to the nodes that rules were called for

A rule that looks at a document as it is written, and that reports where it is called, is reported with the path of the
node and with the span that was recorded for it.  On the way from the one to the other a path goes through the targets of
the rule, its findings, the diagnostics of a check and the records of a run, and the span is looked up in the end.

There is one exception (`Linter.Traced.unmarked`).  A member named `$` in front of a path stands for the root, and is left
out of the record.  So a node below a member of the root that has that name is reported where the rest of the path leads,
or, if the rest leads nowhere, at the last node on the way (`Linter.Traced.near`).
-/

namespace ApiLint

open ApiLint.Graph (Grows)

/-! ### Spans of paths -/

/-- The path of the span that is nearest to `p` is the longest part of `p` that has a span. -/
theorem PositionIndex.exists_nearest? {ix : PositionIndex} (hroot : (ix.get? []).isSome) (p : Path) :
    ∃ q s, ix.nearest? p = some (q, s) ∧ ix.get? q = some s ∧ q <+: p ∧
      ∀ q', q' <+: p → (ix.get? q').isSome → q' <+: q := by
  induction p using List.reverseRecOn with
  | nil =>
    obtain ⟨s, hs⟩ := Option.isSome_iff_exists.mp hroot
    refine ⟨[], s, ?_, hs, List.prefix_refl _, fun q' hq' _ => hq'⟩
    rw [nearest?, hs]
  | append_singleton p segment ih =>
    rw [nearest?]
    cases hs : ix.get? (p ++ [segment]) with
    | some s => exact ⟨_, s, rfl, hs, List.prefix_refl _, fun q' hq' _ => hq'⟩
    | none =>
      obtain ⟨q, s, hnearest, hq, hqp, hlongest⟩ := ih
      refine ⟨q, s, by simpa using hnearest, hq, hqp.trans (List.prefix_append _ _), fun q' hq' hsome => ?_⟩
      rcases List.prefix_concat_iff.mp hq' with rfl | hq'
      · rw [hs] at hsome
        cases hsome
      · exact hlongest q' hq' hsome

namespace Document

variable {id : DocumentId} {content : String} {d : Document}

theorem isSome_span? (h : read id content = .ok d) (p : Path) : (d.span? p).isSome = (d.valueAt? p).isSome := by
  obtain ⟨tree, htree, rfl⟩ := exists_of_read h
  obtain ⟨w, -, rfl⟩ := Json.read_eq_ok_iff.mp htree
  show ((Tree.ofWritten w).span? p).isSome = (w.value.get? p).isSome
  rw [Tree.span?_ofWritten, Written.get?_value, Option.isSome_map, Option.isSome_map]

/-- **A path is traced to the last node on its way.** -/
theorem exists_spanNear (h : read id content = .ok d) (p : Path) :
    ∃ q, q <+: p ∧ d.span? q = some (d.spanNear p) ∧ ∀ q', q' <+: p → (d.valueAt? q').isSome → q' <+: q := by
  have hroot : (d.positions.get? []).isSome = true := isSome_span? h []
  obtain ⟨q, s, hnearest, hq, hqp, hlongest⟩ := PositionIndex.exists_nearest? hroot p
  refine ⟨q, hqp, ?_, fun q' hq' hnode => hlongest q' hq' ((isSome_span? h q').trans hnode)⟩
  cases hs : d.span? p with
  | some s' =>
    have hown : p <+: q := hlongest p (List.prefix_refl p) (by rw [show d.positions.get? p = some s' from hs]; rfl)
    obtain rfl : p = q := hown.eq_of_length_le hqp.length_le
    rw [spanNear, hs, Option.getD_some]
  | none =>
    rw [spanNear, hs, Option.getD_none, nearestSpan, hnearest]
    exact hq

/-- A path that leads to a node is traced to that node. -/
theorem span?_eq_spanNear (h : read id content = .ok d) {p : Path} (hp : (d.valueAt? p).isSome) :
    d.span? p = some (d.spanNear p) := by
  obtain ⟨s, hs⟩ := Option.isSome_iff_exists.mp ((isSome_span? h p).trans hp)
  rw [spanNear, hs, Option.getD_some]

end Document

/-! ### Paths without a root marker -/

namespace Path

theorem withoutMarker_marked (p : Path) : withoutMarker (.key rootMarker :: p) = p := by
  rw [withoutMarker, if_pos rfl]

theorem withoutMarker_of_head? {p : Path} (h : p.head? ≠ some (.key rootMarker)) : p.withoutMarker = p := by
  cases p with
  | nil => rfl
  | cons s p =>
    cases s with
    | index i => rfl
    | key k =>
      have hk : k ≠ rootMarker := by
        rintro rfl
        exact h rfl
      exact if_neg hk

end Path

/-! ### Records as values -/

namespace Record

/-- A record has its path as canonical text, and both ends of its span. -/
theorem member?_value (r : Record) :
    r.value.member? "json-path" = some (.string r.path.text) ∧
      r.value.member? "range" =
        some (.object [("start", positionValue r.span.first), ("end", positionValue r.span.last)]) := by
  -- whether a provider is named or not, it stands under other names
  rw [value]
  cases r.provider.name? <;> cases r.provider.resourceType? <;> exact ⟨rfl, rfl⟩

end Record

/-! ### What rule functions do -/

namespace RuleFunction

def ReportsInPlace (f : RuleFunction) : Prop :=
  ∀ c options n g x, .ok x ∈ (f.call c options n g).1 → x.location = c.location

/-- All that the function does to a graph is to let it grow. -/
def LetsGrow (files : FileSystem) (f : RuleFunction) : Prop :=
  ∀ c options n g, c.files = files → g.Consistent → Grows files g (f.call c options n g).2

end RuleFunction

theorem mem_of_mem_untilFault {items : List (Except Fault Finding)} {f : Finding} (h : f ∈ (untilFault items).1) :
    .ok f ∈ items := by
  rcases untilFault_cases items with ⟨hitems, -⟩ | ⟨fault, rest, hitems, -⟩
  · rw [hitems]
    exact List.mem_map_of_mem h
  · rw [hitems]
    exact List.mem_append_left _ (List.mem_map_of_mem h)

namespace Linter

variable {l : Linter} {files : FileSystem} {g₀ g : Graph} {d : Loaded} {v : View} {r : Rule}

/-! ### From targets to diagnostics -/

/-- A diagnostic names its rule and its document, and stands at the target if the findings do. -/
theorem of_mem_diagnosticsOf {target : Path} {items : List (Except Fault Finding)} {x : Diagnostic}
    (hx : x ∈ l.diagnosticsOf v r target items) :
    x.ruleName = r.name ∧ x.document = v.id ∧ ((∀ f, .ok f ∈ items → f.location = target) → x.path = target) := by
  rcases List.mem_append.mp hx with hx | hx
  · obtain ⟨f, hf, rfl⟩ := List.mem_map.mp hx
    exact ⟨rfl, rfl, fun hplace => hplace f (mem_of_mem_untilFault hf)⟩
  · obtain ⟨fault, -, rfl⟩ := Option.map_eq_some_iff.mp (Option.mem_toList.mp hx)
    exact ⟨rfl, rfl, fun _ => rfl⟩

/-- Checking a rule lets the graph grow, and every diagnostic comes of a call for a target. -/
theorem exists_of_mem_checkRule (hr : r.function.LetsGrow files) (hg : Grows files g₀ g) :
    Grows files g₀ (l.checkRule files v r g).2 ∧ ∀ x ∈ (l.checkRule files v r g).1,
      ∃ t ∈ r.targets (treeFor v r), ∃ h, x ∈ l.diagnosticsOf v r t.path (l.invoke files v r t h).1 := by
  have hcall : ∀ t ∈ r.targets (treeFor v r), ∀ h, Grows files g₀ h →
      Grows files g₀ (l.checkTarget files v r t h).2 :=
    fun t _ h hh => hh.trans (hr _ _ t.node h rfl hh.consistent)
  obtain ⟨hlast, hfound⟩ := Graph.exists_of_mem_each hcall hg
  refine ⟨hlast, fun x hx => ?_⟩
  obtain ⟨xs, hxs, hx⟩ := List.mem_flatten.mp hx
  obtain ⟨t, ht, h, -, rfl⟩ := hfound xs hxs
  exact ⟨t, ht, h, hx⟩

/-- Checking a document lets the graph grow, and every diagnostic comes of a call of a rule that applies. -/
theorem exists_of_mem_checkLoaded (hrules : ∀ r ∈ l.activeRules, r.function.LetsGrow files) (hg : Grows files g₀ g)
    (hd : g.Holds d) :
    Grows files g₀ (l.checkLoaded files d g).2 ∧ ∀ x ∈ (l.checkLoaded files d g).1,
      ∃ v : View, v.root = d ∧ ∃ r ∈ l.activeRules, ∃ t ∈ r.targets (treeFor v r), ∃ h,
        x ∈ l.diagnosticsOf v r t.path (l.invoke files v r t h).1 := by
  obtain ⟨⟨asked, hloads⟩, -⟩ := View.gathers_ofLoaded hg.consistent files hd
  have hview := hg.trans (hloads.grows hg.consistent)
  have hrule : ∀ r ∈ l.activeRules, ∀ h, Grows files g₀ h →
      Grows files g₀ (l.checkRule files (View.ofLoaded files g d).1 r h).2 :=
    fun r hr h hh => (exists_of_mem_checkRule (hrules r hr) hh).1
  have hcheck : ∀ r ∈ l.activeRules, ∀ h, Grows files g₀ h →
      ∀ x ∈ (l.checkRule files (View.ofLoaded files g d).1 r h).1, ∃ t ∈ r.targets (treeFor _ r), ∃ h',
        x ∈ l.diagnosticsOf (View.ofLoaded files g d).1 r t.path (l.invoke files (View.ofLoaded files g d).1 r t h').1 :=
    fun r hr h hh => (exists_of_mem_checkRule (hrules r hr) hh).2
  obtain ⟨hlast, hfound⟩ := Graph.exists_of_mem_each hrule hview
  refine ⟨hlast, fun x hx => ?_⟩
  obtain ⟨xs, hxs, hx⟩ := List.mem_flatten.mp hx
  obtain ⟨r, hr, h, hh, rfl⟩ := hfound xs hxs
  obtain ⟨t, ht, h', hx⟩ := hcheck r hr h hh x hx
  exact ⟨_, rfl, r, hr, t, ht, h', hx⟩

/-! ### From diagnostics to records -/

/-- The record is about the node for which a rule was called at the target `t` of the document `d`. -/
structure Traced (d : Document) (t : Query.Match) (record : Record) : Prop where
  /-- The path of the target leads to the node. -/
  node : d.valueAt? t.path = some t.node.value
  /-- The record has the path of the target, without a root marker. -/
  path : record.path = t.path.withoutMarker
  /-- Its span is that of the last node on the way of its path. -/
  near : ∃ q, q <+: record.path ∧ d.span? q = some record.span ∧
    ∀ q', q' <+: record.path → (d.valueAt? q').isSome → q' <+: q
  /-- Unless the path of the target starts with a member named `$`, both are those of the node. -/
  unmarked : t.path.head? ≠ some (.key Path.rootMarker) → record.path = t.path ∧ d.span? t.path = some record.span
  /-- If it does, the record leads where the rest of that path leads. -/
  marked : ∀ rest, t.path = .key Path.rootMarker :: rest → record.path = rest
  /-- The value of the record has the path as canonical text, and both ends of the span. -/
  written : record.value.member? "json-path" = some (.string record.path.text) ∧
    record.value.member? "range" = some (.object [("start", Record.positionValue record.span.first),
      ("end", Record.positionValue record.span.last)])

/-- A diagnostic of a target in the document as it is written is traced back to the node. -/
theorem traced_ofDiagnostic (hg : g.Consistent) (hd : g.Holds d) {t : Query.Match}
    (ht : t ∈ r.targets (.raw d.document.value)) {x : Diagnostic} (hdocument : x.document = d.id)
    (hpath : x.path = t.path) : Traced d.document t (.ofDiagnostic g x) := by
  have hread := hg.contents _ _ hd.document
  have hnode : d.document.valueAt? t.path = some t.node.value := by
    have hstands := Rule.stands_of_mem_targets (Node.hasDistinctNames_raw (hg.hasDistinctNames hd)) ht
    rw [Query.Match.Stands, Node.at?_raw] at hstands
    obtain ⟨w, hw, hraw⟩ := Option.map_eq_some_iff.mp hstands
    rw [← hraw]
    exact hw
  have hspan : (Record.ofDiagnostic g x).span = d.document.spanNear t.path.withoutMarker := by
    show Record.spanOf g x.document x.path.withoutMarker = _
    rw [hdocument, hpath, Record.spanOf, get_of_holds hg hd]
  have hrecord : (Record.ofDiagnostic g x).path = t.path.withoutMarker := by
    show x.path.withoutMarker = _
    rw [hpath]
  refine ⟨hnode, hrecord, ?near, fun hhead => ?unmarked, fun rest hrest => ?marked, Record.member?_value _⟩
  case near =>
    rw [hspan, hrecord]
    exact Document.exists_spanNear hread _
  case marked => rw [hrecord, hrest, Path.withoutMarker_marked]
  case unmarked =>
    rw [Path.withoutMarker_of_head? hhead] at hspan hrecord
    rw [hspan]
    exact ⟨hrecord, Document.span?_eq_spanNear hread (by rw [hnode]; rfl)⟩

/-- **What a rule reports of a document as it is written is traced back to the node that it was called for**, unless the
path of the node starts like a path with a root marker. -/
theorem exists_traced {base : FilePath} (hbase : base.isAbsolute = true) {s : Session} (hs : s.From base)
    (hrules : ∀ r ∈ l.activeRules, r.function.LetsGrow s.files)
    (honly : ∀ r' ∈ l.activeRules, r'.name = r.name → r' = r) (hraw : r.resolved = false)
    (hplace : r.function.ReportsInPlace) (paths : List FilePath) {record : Record}
    (hrecord : record ∈ (l.run s.files s.graph paths).1.records) (hcode : record.code = r.name) :
    ∃ p ∈ paths, ∃ d, (s.graph.load s.files p).1 = .ok d ∧ record.document = d.id ∧
      ∃ t ∈ r.targets (.raw d.document.value), Traced d.document t record := by
  have hg := hs.consistent hbase
  have hloads := (settled_loads hg s.files paths).grows _ (.refl s.files hg)
  let loaded := (Graph.each (fun p g => g.load s.files p) paths s.graph).2
  have hheld : ∀ d ∈ loadedOnce (Graph.each (fun p g => g.load s.files p) paths s.graph).1, loaded.Holds d :=
    fun d hd => holds_of_mem_loadedOnce hg hd
  have hcheck : ∀ d ∈ loadedOnce (Graph.each (fun p g => g.load s.files p) paths s.graph).1, ∀ h,
      Grows s.files loaded h → Grows s.files loaded (l.checkLoaded s.files d h).2 :=
    fun d hd h hh => (exists_of_mem_checkLoaded hrules hh ((hheld d hd).extend hh.toExtends)).1
  obtain ⟨hlast, hfound⟩ := Graph.exists_of_mem_each hcheck (.refl s.files hloads.consistent)
  obtain ⟨x, hx, rfl⟩ := List.mem_map.mp hrecord
  obtain ⟨xs, hxs, hx⟩ := List.mem_flatten.mp hx
  obtain ⟨d, hd, h, hh, rfl⟩ := hfound xs hxs
  obtain ⟨v, rfl, r', hr', t, ht, h', hx⟩ :=
    (exists_of_mem_checkLoaded hrules hh ((hheld d hd).extend hh.toExtends)).2 x hx
  obtain ⟨hname, hdocument, hpath⟩ := of_mem_diagnosticsOf hx
  obtain rfl := honly r' hr' (hname.symm.trans hcode)
  have htree : treeFor v r' = .raw v.root.document.value := by
    rw [treeFor, hraw]
    rfl
  rw [htree] at ht
  have hplaced : x.path = t.path := hpath fun f hf => hplace _ _ _ _ f hf
  have hload := mem_of_mem_loadedOnce hd
  rw [loads_eq hg] at hload
  obtain ⟨p, hp, hload⟩ := List.mem_map.mp hload
  exact ⟨p, hp, v.root, hload, hdocument, t, ht,
    traced_ofDiagnostic hlast.consistent ((hheld _ hd).extend hlast.toExtends) ht hdocument hplaced⟩

/-! ### One rule on one document -/

/-- What is reported of a document that is a view by itself. -/
def ownRecords (l : Linter) (files : FileSystem) (d : Loaded) (g : Graph) : List Record :=
  let (found, g) := Graph.each (l.checkRule files ⟨d, []⟩) l.activeRules g
  found.flatten.map (.ofDiagnostic g)

theorem records_of_own {p : FilePath} (hload : (g.load files p).1 = .ok d) (hown : d.references.edges = [])
    (l : Linter) : (l.run files g [p]).1.records = l.ownRecords files d (g.load files p).2 := by
  have hview : ∀ next, View.ofLoaded files next d = (⟨d, []⟩, next) := fun next =>
    View.ofLoaded_of_own files next (by simp [hown])
  simp only [run, reportOf, Graph.each, hload, loadedOnce, checkLoaded, hview, ownRecords, List.filter_nil, List.flatten_cons,
    List.flatten_nil, List.append_nil]

def placing (q : Query) : Rule :=
  ⟨"T1", "placing", "", .warning, "", .all, false, [q], none, .null, .eager fun c _ g => (.ok [⟨"", c.location⟩], g)⟩

theorem reportsInPlace_placing (q : Query) : (placing q).function.ReportsInPlace := by
  intro c options n g x hx
  obtain ⟨f, hf, heq⟩ := List.mem_map.mp hx
  rw [← Except.ok.inj heq, List.mem_singleton.mp hf]

theorem letsGrow_placing (files : FileSystem) (q : Query) : (placing q).function.LetsGrow files :=
  fun _ _ _ _ _ hg => .refl files hg

def place (q : Query) : Linter :=
  ⟨⟨[placing q]⟩, .default⟩

theorem eq_placing_of_mem {q : Query} {r : Rule} (hr : r ∈ (place q).activeRules) : r = placing q :=
  List.mem_singleton.mp (List.mem_filter.mp hr).1

/-- A member named `$` that is not in front is a member like any other. -/
theorem exists_traced_of_inner_marker : ∃ (s : Session) (l : Linter) (r : Rule) (record : Record),
    (⟨"/"⟩ : FilePath).isAbsolute = true ∧ s.From ⟨"/"⟩ ∧ (∀ r ∈ l.activeRules, r.function.LetsGrow s.files) ∧
      (∀ r' ∈ l.activeRules, r'.name = r.name → r' = r) ∧ r.resolved = false ∧ r.function.ReportsInPlace ∧
      record ∈ (l.run s.files s.graph [⟨"a.json"⟩]).1.records ∧ record.code = r.name ∧
      record.path = [.key "x y", .key "$"] ∧ ∃ p ∈ [(⟨"a.json"⟩ : FilePath)], ∃ d,
        (s.graph.load s.files p).1 = .ok d ∧ record.document = d.id ∧
          ∃ t ∈ r.targets (.raw d.document.value), Traced d.document t record := by
  let files : FileSystem := ⟨[(⟨"/a.json"⟩, "\x7b\"x y\":\x7b\"$\":1\x7d,\"$\":2\x7d")], fun _ => "no such file"⟩
  let q : Query := ⟨"$['x y']['$']", [.child [.name "x y"], .child [.name "$"]]⟩
  let s : Session := ⟨files, .empty ⟨"/"⟩⟩
  have hbase : (⟨"/"⟩ : FilePath).isAbsolute = true := by decide +kernel
  have hfrom : s.From ⟨"/"⟩ := ⟨files, [], rfl⟩
  have hgrow : ∀ r ∈ (place q).activeRules, r.function.LetsGrow files := by
    intro r hr
    rw [eq_placing_of_mem hr]
    exact letsGrow_placing files q
  have hfacts : ∃ d ∈ (s.graph.load files ⟨"a.json"⟩).1.toOption, d.references.edges = [] ∧
      ∃ record ∈ (place q).ownRecords files d (s.graph.load files ⟨"a.json"⟩).2, record.code = (placing q).name ∧
        record.path = [.key "x y", .key "$"] := by
    decide +kernel
  obtain ⟨d, hd, hnone, record, hrecord, hcode, hpath⟩ := hfacts
  have hreported : record ∈ ((place q).run s.files s.graph [⟨"a.json"⟩]).1.records := by
    rw [records_of_own (Graph.load_of_mem_toOption hd) hnone]
    exact hrecord
  exact ⟨s, place q, placing q, record, hbase, hfrom, hgrow, fun r' hr' _ => eq_placing_of_mem hr', rfl,
    reportsInPlace_placing q, hreported, hcode, hpath, exists_traced hbase hfrom hgrow
      (fun r' hr' _ => eq_placing_of_mem hr') rfl (reportsInPlace_placing q) _ hreported hcode⟩

/-- A member of the root that is named `$` is taken for the root: the rule is called for the object under that name, and
the record has neither its path nor its span, but those of the document. -/
theorem not_traced_of_marker : ∃ (s : Session) (l : Linter) (r : Rule) (d : Loaded) (record : Record),
    (⟨"/"⟩ : FilePath).isAbsolute = true ∧ s.From ⟨"/"⟩ ∧ r ∈ l.activeRules ∧
      (∀ r ∈ l.activeRules, r.function.LetsGrow s.files) ∧ r.resolved = false ∧ r.function.ReportsInPlace ∧
      (s.graph.load s.files ⟨"a.json"⟩).1 = .ok d ∧
      (r.targets (.raw d.document.value)).map Query.Match.path = [[.key "$"]] ∧
      (l.run s.files s.graph [⟨"a.json"⟩]).1.records = [record] ∧ record.code = r.name ∧
      d.document.span? [.key "$"] ≠ some record.span ∧ d.document.span? [] = some record.span ∧
      record.value.member? "json-path" ≠ some (.string (Path.text [.key "$"])) := by
  let files : FileSystem := ⟨[(⟨"/a.json"⟩, "\x7b\"$\":\x7b\"x\":1\x7d,\"x\":2\x7d")], fun _ => "no such file"⟩
  let q : Query := ⟨"$['$']", [.child [.name "$"]]⟩
  let s : Session := ⟨files, .empty ⟨"/"⟩⟩
  have hbase : (⟨"/"⟩ : FilePath).isAbsolute = true := by decide +kernel
  have hfrom : s.From ⟨"/"⟩ := ⟨files, [], rfl⟩
  have hgrow : ∀ r ∈ (place q).activeRules, r.function.LetsGrow files := by
    intro r hr
    rw [eq_placing_of_mem hr]
    exact letsGrow_placing files q
  have hfacts : ∃ d ∈ (s.graph.load files ⟨"a.json"⟩).1.toOption, d.references.edges = [] ∧
      ((placing q).targets (.raw d.document.value)).map Query.Match.path = [[.key "$"]] ∧
      ∃ record ∈ ((place q).ownRecords files d (s.graph.load files ⟨"a.json"⟩).2).head?,
        (place q).ownRecords files d (s.graph.load files ⟨"a.json"⟩).2 = [record] ∧
        record.code = (placing q).name ∧ d.document.span? [.key "$"] ≠ some record.span ∧
        d.document.span? [] = some record.span ∧ record.path.text ≠ Path.text [.key "$"] := by
    decide +kernel
  obtain ⟨d, hd, hnone, htargets, record, -, hrecords, hcode, hspan, hroot, htext⟩ := hfacts
  have hload := Graph.load_of_mem_toOption hd
  refine ⟨s, place q, placing q, d, record, hbase, hfrom, List.mem_singleton_self _, hgrow, rfl,
    reportsInPlace_placing q, hload, htargets, ?_, hcode, hspan, hroot, ?_⟩
  · rw [records_of_own hload hnone]
    exact hrecords
  · rw [record.member?_value.1]
    intro heq
    exact htext (Value.string.inj (Option.some.inj heq))

end Linter

end ApiLint
