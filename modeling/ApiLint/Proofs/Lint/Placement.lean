import ApiLint.Proofs.Json.Spans
import ApiLint.Proofs.Lint.Tracing

/-!
# Every record has a place

Rules make up paths: below a number or a string, through a reference that the text does not cross, to a member that is
missing.  Wherever a diagnostic is said to be, its record has the span of the last node on the way
(`Record.PointsInto.near`), and that is a span of a text (`Span.IsProper`), never the empty one.  All that it takes is that
the document is one of the graph's: it is found again under its id, and the way starts at a node, the root.

Diagnostics are written as records one by one, so that the records of a list are in its order.
-/

namespace ApiLint

/-! ### Spans of texts -/

/-- Lines and columns count from one, and there is something between the ends. -/
structure Span.IsProper (s : Span) : Prop where
  first : 1 ≤ s.first.line ∧ 1 ≤ s.first.column
  last : 1 ≤ s.last.line ∧ 1 ≤ s.last.column
  nonempty : s.first.offset < s.last.offset

theorem Span.IsProper.ne_zero {s : Span} (h : s.IsProper) : s ≠ .zero := by
  rintro rfl
  exact absurd h.first.1 (by decide)

namespace Position

theorem one_le_ofBefore (before : List Char) : 1 ≤ (ofBefore before).line ∧ 1 ≤ (ofBefore before).column :=
  ⟨Nat.le_add_right .., Nat.le_add_right ..⟩

theorem offset_ofBefore_lt (before : List Char) (c : Char) (piece : List Char) :
    (ofBefore before).offset < (ofBefore (before ++ c :: piece)).offset := by
  have hsize := c.utf8Size_pos
  show byteSize before < byteSize (before ++ c :: piece)
  rw [byteSize_append, byteSize_cons]
  omega

end Position

namespace Document

variable {id : DocumentId} {content : String} {d : Document}

/-- The text of a node is not empty. -/
theorem isProper_of_span? (h : read id content = .ok d) {p : Path} {s : Span} (hs : d.span? p = some s) :
    s.IsProper := by
  obtain ⟨v, hv⟩ := Option.isSome_iff_exists.mp ((isSome_span? h p).symm.trans (Option.isSome_of_mem hs))
  obtain ⟨tree, htree, rfl⟩ := exists_of_read h
  obtain ⟨before, piece, after, -, hspan, n, -, hpiece⟩ := Json.exists_piece htree hv
  obtain ⟨c, rest, rfl, -⟩ := Json.exists_first_of_valueText hpiece
  obtain rfl := Option.some.inj (hspan.symm.trans hs)
  exact ⟨Position.one_le_ofBefore _, Position.one_le_ofBefore _, Position.offset_ofBefore_lt before c rest⟩

end Document

/-! ### Records of diagnostics -/

namespace Record

structure Tells (r : Record) (x : Diagnostic) : Prop where
  rule : r.id = x.ruleId ∧ r.code = x.ruleName ∧ r.category = x.category
  severity : r.severity = x.severity
  message : r.message = x.message
  document : r.document = x.document
  provider : r.provider = x.provider
  path : r.path = x.path.withoutMarker

/-- The record points at the last node of the document on the way of its path. -/
structure PointsInto (r : Record) (d : Document) : Prop where
  /-- Its span is that of the last node on the way. -/
  near : ∃ q, q <+: r.path ∧ (d.valueAt? q).isSome ∧ d.span? q = some r.span ∧
    ∀ q', q' <+: r.path → (d.valueAt? q').isSome → q' <+: q
  /-- It has lines and columns. -/
  proper : r.span.IsProper
  ne_zero : r.span ≠ .zero
  /-- What is written of the record are its path and the ends of the span. -/
  written : r.value.member? "json-path" = some (.string r.path.text) ∧
    r.value.member? "location" = some (positionValue r.span.first) ∧
    r.value.member? "range" =
      some (.object [("start", positionValue r.span.first), ("end", positionValue r.span.last)])

theorem tells_ofDiagnostic (g : Graph) (x : Diagnostic) : (ofDiagnostic g x).Tells x :=
  ⟨⟨rfl, rfl, rfl⟩, rfl, rfl, rfl, rfl, rfl⟩

theorem location_value (r : Record) : r.value.member? "location" = some (positionValue r.span.first) := by
  -- whether a provider is named or not, it stands under other names
  rw [value]
  cases r.provider.name? <;> cases r.provider.resourceType? <;> rfl

theorem pointsInto_ofDiagnostic {g : Graph} (hg : g.Consistent) {d : Document} (hd : d ∈ g.documents) {x : Diagnostic}
    (hx : x.document = d.id) : (ofDiagnostic g x).PointsInto d := by
  have hknown := hg.outcome?_of_mem_documents hd
  have hread := hg.contents _ _ hknown
  have hspan : (ofDiagnostic g x).span = d.spanNear (ofDiagnostic g x).path := by
    show spanOf g x.document x.path.withoutMarker = d.spanNear x.path.withoutMarker
    rw [hx, spanOf, hg.get_of_outcome? hknown]
  obtain ⟨q, hq, hs, hlongest⟩ := Document.exists_spanNear hread (ofDiagnostic g x).path
  rw [← hspan] at hs
  have hnode : (d.valueAt? q).isSome := by
    rw [← Document.isSome_span? hread, hs]
    rfl
  have hproper := Document.isProper_of_span? hread hs
  obtain ⟨hpath, hrange⟩ := (ofDiagnostic g x).member?_value
  exact ⟨⟨q, hq, hnode, hs, hlongest⟩, hproper, hproper.ne_zero, hpath, location_value _, hrange⟩

/-- **Diagnostics are written as records one by one, and each record points at the last node on the way of its path**, in
whatever document of the graph it is and wherever in it a rule says. -/
theorem pointsInto_ofDiagnostics {base : FilePath} (hbase : base.isAbsolute = true) {s : Session} (hs : s.From base)
    (xs : List Diagnostic) :
    List.Forall₂ (fun x r => r.Tells x ∧ ∀ d ∈ s.graph.documents, x.document = d.id → r.PointsInto d) xs
      (xs.map (ofDiagnostic s.graph)) := by
  refine List.forall₂_map_right_iff.mpr (List.forall₂_same.mpr fun x _ => ⟨tells_ofDiagnostic s.graph x, ?_⟩)
  exact fun d hd hx => pointsInto_ofDiagnostic (hs.consistent hbase) hd hx

/-- Below a number, through a reference that the text does not cross, and at the root: the records have the spans of the
number, of the reference and of the whole text. -/
theorem pointsInto_ofDiagnostics_of_made_up_paths : ∃ s : Session, ∃ xs : List Diagnostic, ∃ d ∈ s.graph.documents,
    (⟨"/"⟩ : FilePath).isAbsolute = true ∧ s.From ⟨"/"⟩ ∧ (∀ x ∈ xs, x.document = d.id) ∧
      xs.map Diagnostic.path =
        [[.key "$", .key "n", .index 0, .key "low", .index 7], [.key "x", .key "z"], [.key "$"]] ∧
      ((xs.map (ofDiagnostic s.graph)).map fun r => some r.span) =
        [d.span? [.key "n", .index 0], d.span? [.key "x"], d.span? []] ∧
      List.Forall₂ (fun x r => r.Tells x ∧ ∀ d ∈ s.graph.documents, x.document = d.id → r.PointsInto d) xs
        (xs.map (ofDiagnostic s.graph)) := by
  let files : FileSystem := ⟨[
    (⟨"/a.json"⟩, "\x7b\"x\":\x7b\"$ref\":\"b.json#/y\"\x7d,\n\"n\":[1]\x7d"),
    (⟨"/b.json"⟩, "\x7b\"y\":\x7b\"z\":2\x7d\x7d")], fun _ => "no such file"⟩
  let s : Session := ⟨files, (Graph.load files (.empty ⟨"/"⟩) ⟨"a.json"⟩).2⟩
  let about (p : Path) : Diagnostic := ⟨"T1", "made-up", .warning, "", "", ⟨"/a.json"⟩, p⟩
  let xs := [about [.key "$", .key "n", .index 0, .key "low", .index 7], about [.key "x", .key "z"], about [.key "$"]]
  have hbase : (⟨"/"⟩ : FilePath).isAbsolute = true := by decide +kernel
  have hs : s.From ⟨"/"⟩ := ⟨files, [.load ⟨"a.json"⟩], rfl⟩
  have hfacts : ∃ d ∈ s.graph.documents, (∀ x ∈ xs, x.document = d.id) ∧
      ((xs.map (ofDiagnostic s.graph)).map fun r => some r.span) =
        [d.span? [.key "n", .index 0], d.span? [.key "x"], d.span? []] := by
    decide +kernel
  obtain ⟨d, hd, hdocument, hspans⟩ := hfacts
  exact ⟨s, xs, d, hd, hbase, hs, hdocument, rfl, hspans, pointsInto_ofDiagnostics hbase hs xs⟩

end Record

end ApiLint
