import ApiLint.Proofs.View.Following

/-!
# What a reference of the viewed document stands for

Whoever looks at the viewed document with references in mind asks what a value stands for.  For a reference object the
text of the reference is read once more, from the root of the document, and the chain is followed on from where that
leads, so that the nodes landed on are counted from one reference later than they are in the graph.  The end is then
looked for among the documents of the view.

Neither changes what comes of it.  The text designates where the edge leads that starts at the reference
(`Graph.Consistent.locate_eq_edge?`), wherever on a chain one starts following comes to the same (`View.Comes.agrees`),
and the end of a chain lies in the view (`View.Comes.exists_end`).  So there is a value if and only if the chain has an
end, and it is the one there (`View.standsFor`).  A reference that designates nothing is an error for both, but each
says where it was asked.
-/

namespace ApiLint

open Relation (ReflTransGen)
open ApiLint.Graph (Grows)

/-- The same node, or an error each, or a circle each. -/
inductive Resolution.SameEnd : Resolution → Resolution → Prop
  | resolved (d : Document) (p : Path) : SameEnd (.resolved d p) (.resolved d p)
  | unresolved (e e' : ReferenceError) : SameEnd (.unresolved e) (.unresolved e')
  | cycle (t t' : Location) : SameEnd (.cycle t) (.cycle t')

theorem Resolution.Agrees.sameEnd {r r' : Resolution} (h : r.Agrees r') : r.SameEnd r' := by
  cases h with
  | resolved d p => exact .resolved d p
  | unresolved e => exact .unresolved e e
  | cycle t t' => exact .cycle t t'

theorem Resolution.value?_eq_some_iff {r : Resolution} {w : Value} :
    r.value? = some w ↔ ∃ d q, r = .resolved d q ∧ d.valueAt? q = some w := by
  cases r with
  | resolved d q =>
    constructor
    · exact fun h => ⟨d, q, rfl, h⟩
    · rintro ⟨_, _, heq, h⟩
      cases heq
      exact h
  | unresolved | cycle =>
    constructor
    · exact fun h => nomatch h
    · rintro ⟨_, _, heq, -⟩
      cases heq

/-- A session that goes on after the view of a document was made, or, while no file comes, one that goes on before. -/
inductive Session.Sees (s : Session) (id : DocumentId) : Session → Prop
  | after (ops : List Operation) : Sees s id ((s.step (.view id)).run ops)
  | before {ops : List Operation} : (∀ op ∈ ops, op.isRequest = true) → Sees s id (s.run ops)

namespace View

variable {v : View} {g h : Graph} {p : Path} {reference : String} {l : Location} {r : Resolution}

/-- What the reference object `value` of the viewed document stands for, which is `found`, against what following it in
the graph comes to.  Looked up from the view, the reference comes to `looked`. -/
structure StandsFor (v : View) (followed looked : Resolution) (found : Option Value) : Prop where
  /-- A value is found if and only if the chain has an end, and it is the one there. -/
  some_iff : ∀ w, found = some w ↔ ∃ d q, followed = .resolved d q ∧ d.valueAt? q = some w
  isSome_iff : found.isSome ↔ ∃ d q, followed = .resolved d q
  /-- None is found if and only if the chain goes round or comes to an error. -/
  none_iff : found = none ↔ (∃ t, followed = .cycle t) ∨ ∃ e, followed = .unresolved e
  /-- Both come to the same end. -/
  sameEnd : followed.SameEnd looked
  /-- The end is a node of the view. -/
  within : ∀ d q, looked = .resolved d q →
    ∃ held, v.document? d.id = some held ∧ held.document = d ∧ (v.valueAt? ⟨d.id, q⟩).isSome

/-! ### Both lookups in one view -/

theorem Gathers.extend (hgathers : Gathers g v.documents []) (hgh : g.Extends h) : Gathers h v.documents [] :=
  ⟨fun l hl => (hgathers.held l hl).extend hgh, hgathers.nodup, hgathers.closed⟩

/-- The end of a chain is a node of the view. -/
theorem Comes.exists_end (hcomes : v.Comes [l] l r) (hv : v.Complete) (hl : (v.valueAt? l).isSome) {d : Document}
    {q : Path} (hr : r = .resolved d q) :
    ∃ held w, v.document? d.id = some held ∧ held.document = d ∧ v.valueAt? ⟨d.id, q⟩ = some w ∧
      d.valueAt? q = some w := by
  subst hr
  rcases hcomes.ending_of_self with ⟨t, hjumps, hstop⟩ | ⟨t, hcycle, -⟩
  · cases hstop with
    | @resolved held hd hedge herror =>
      obtain ⟨w, hw⟩ : ∃ w, v.valueAt? t = some w := by
        refine Option.isSome_iff_exists.mp ?_
        rcases hjumps.cases_tail with rfl | ⟨u, -, e, he, rfl⟩
        · exact hl
        · exact hv.target u e he
      have hid : held.id = t.document := key_of_find? hd
      have hheld : v.document? held.id = some held := (congrArg v.document? hid).trans hd
      have hnode : v.valueAt? ⟨held.id, t.path⟩ = some w :=
        (congrArg (fun i => v.valueAt? ⟨i, t.path⟩) hid).trans hw
      refine ⟨held, w, hheld, rfl, hnode, ?_⟩
      rwa [valueAt?, hd, Option.bind_some] at hw
  · cases hcycle

/-- **Looking a reference up comes to the end that following it comes to.** -/
theorem Gathers.sameEnd_resolve (hgathers : Gathers g v.documents []) (hg : g.Consistent) (files : FileSystem)
    (hsite : v.root.document.value.IsSite p reference) (hcomes : v.Comes [⟨v.id, p⟩] ⟨v.id, p⟩ r) :
    r.SameEnd (v.resolve files g reference).1 := by
  have hv := hgathers.complete hg
  have hroot : g.Holds v.root := hgathers.holds_of_document? hv.root
  have hlocate := hg.locate_eq_edge? hroot hsite files []
  have hgrown := (Graph.settled_locate hg files v.root.document [] reference).grows g (.refl files hg)
  have hedge : v.edge? ⟨v.id, p⟩ = v.root.references.edge? p := edge?_of_document? hv.root
  rw [resolve]
  cases hfound : g.locate files v.root.document [] reference with
  | mk found next =>
    rw [hfound] at hlocate hgrown
    cases found with
    | error e =>
      -- the reference is one of those that designate nothing
      have hnone := Option.map_eq_none_iff.mp hlocate.symm
      have herror : ∃ e', v.root.references.error? p = some e' := by
        rcases List.mem_append.mp (((hg.partitions hroot).1.sites p reference).mpr hsite) with hmem | hmem
        · obtain ⟨e', he', heq⟩ := List.mem_map.mp hmem
          have hkept := List.find?_eq_none.mp hnone e' he'
          exact absurd (decide_eq_true (congrArg Prod.fst heq)) hkept
        · obtain ⟨e', he', heq⟩ := List.mem_map.mp hmem
          refine Option.isSome_iff_exists.mp (List.find?_isSome.mpr ⟨e', he', ?_⟩)
          exact decide_eq_true (congrArg Prod.fst heq)
      obtain ⟨e', he'⟩ := herror
      have hstop : v.Stops ⟨v.id, p⟩ (.unresolved e') := .unresolved hv.root hnone he'
      cases hcomes.agrees .refl (.stops hstop)
      exact .unresolved e' e
    | ok target =>
      obtain ⟨e, he, rfl⟩ := Option.map_eq_some_iff.mp hlocate.symm
      have hcross := hedge.trans he
      exact (hcomes.agrees (.single ⟨e, hcross, rfl⟩) (comes_followTarget hgathers hg hgrown hcross)).sameEnd

/-- What a reference object stands for is told by what following it comes to. -/
theorem Comes.standsFor_landed (hcomes : v.Comes [l] l r) (hv : v.Complete) (hl : (v.valueAt? l).isSome)
    {looked : Resolution} (hsame : r.SameEnd looked) : v.StandsFor r looked (v.landed [] looked).1 := by
  have hfound : (v.landed [] looked).1 = r.value? := by
    cases hsame with
    | resolved d q =>
      obtain ⟨held, w, -, -, hnode, hvalue⟩ := hcomes.exists_end hv hl rfl
      rw [landed, if_neg List.not_mem_nil, Resolution.value?, hvalue]
      exact hnode
    | unresolved | cycle => rfl
  rw [hfound]
  refine ⟨fun w => Resolution.value?_eq_some_iff, ⟨fun hsome => ?reached, ?some⟩, ?none, hsame, ?within⟩
  case reached =>
    obtain ⟨w, hw⟩ := Option.isSome_iff_exists.mp hsome
    obtain ⟨d, q, hr, -⟩ := Resolution.value?_eq_some_iff.mp hw
    exact ⟨d, q, hr⟩
  case some =>
    rintro ⟨d, q, rfl⟩
    obtain ⟨held, w, -, -, -, hvalue⟩ := hcomes.exists_end hv hl rfl
    rw [Resolution.value?, hvalue]
    rfl
  case none =>
    cases r with
    | resolved d q =>
      obtain ⟨held, w, -, -, -, hvalue⟩ := hcomes.exists_end hv hl rfl
      simp [Resolution.value?, hvalue]
    | cycle t => simp [Resolution.value?]
    | unresolved e => simp [Resolution.value?]
  case within =>
    intro d q hlooked
    subst hlooked
    cases hsame with
    | resolved =>
      obtain ⟨held, w, hheld, hdocument, hnode, -⟩ := hcomes.exists_end hv hl rfl
      exact ⟨held, hheld, hdocument, by rw [hnode]; rfl⟩

/-! ### In sessions -/

/-- While the view is at hand, or no file comes, every answer is one that is given after the view was made. -/
theorem exists_after {base : FilePath} (hbase : base.isAbsolute = true) {s a : Session} (hs : s.From base)
    {id : DocumentId} (hview : (ofDocument s.files s.graph id).1 = .ok v) (ha : s.Sees id a) :
    ∃ b : Session, b.graph.Consistent ∧ Gathers b.graph v.documents [] ∧
      (∀ q, (a.graph.follow a.files v.id q).1 = (b.graph.follow b.files v.id q).1) ∧
      (∀ text, (v.resolve a.files a.graph text).1 = (v.resolve b.files b.graph text).1) ∧
      ∀ value, (v.target? a.files a.graph value).1 = (v.target? b.files b.graph value).1 := by
  have hg₀ := hs.consistent hbase
  obtain ⟨hmade, hgathers⟩ := gathers_ofDocument hg₀ (Prod.ext hview rfl)
  cases ha with
  | after ops =>
    obtain ⟨_, hran⟩ := Session.ran (s := s.step (.view id)) hmade ops
    exact ⟨_, hran.consistent, hgathers.extend hran.toExtends, fun _ => rfl, fun _ => rfl, fun _ => rfl⟩
  | @before ops hops =>
    obtain ⟨hfiles, hgrows⟩ := Session.grows_of_requests hg₀ hops
    have hafter := (settled_ofDocument hg₀ s.files id).grows _ (.refl s.files hg₀)
    refine ⟨s.step (.view id), hmade, hgathers, fun q => ?_, fun text => ?_, fun value => ?_⟩
    · have hsettled := Graph.settled_follow hg₀ s.files v.id q
      rw [hfiles]
      exact (hsettled.same _ hgrows).trans (hsettled.same _ hafter).symm
    · have hsettled : Graph.Settled s.files s.graph fun g => v.resolve s.files g text := settled_resolve hg₀ v text
      rw [hfiles]
      exact (hsettled.same _ hgrows).trans (hsettled.same _ hafter).symm
    · have hsettled : Graph.Settled s.files s.graph fun g => v.target? s.files g value := settled_target? hg₀ v value
      rw [hfiles]
      exact (hsettled.same _ hgrows).trans (hsettled.same _ hafter).symm

/-- **A reference of the viewed document stands for the value at the end of its chain**, and for nothing if the chain has
no end.  It does not matter when it is followed and when it is looked up. -/
theorem standsFor {base : FilePath} (hbase : base.isAbsolute = true) {s a b : Session} (hs : s.From base)
    {id : DocumentId} (hview : (ofDocument s.files s.graph id).1 = .ok v) (ha : s.Sees id a) (hb : s.Sees id b)
    (hsite : v.root.document.value.IsSite p reference) :
    ∃ value followed, v.root.document.valueAt? p = some value ∧ value.reference? = some reference ∧
      (a.graph.follow a.files v.id p).1 = .ok followed ∧
      v.StandsFor followed (v.resolve b.files b.graph reference).1 (v.target? b.files b.graph value).1 := by
  obtain ⟨a', hga, hgathersa, hfollow, -, -⟩ := exists_after hbase hs hview ha
  obtain ⟨b', hgb, hgathersb, -, hresolve, htarget⟩ := exists_after hbase hs hview hb
  have hv := hgathersa.complete hga
  obtain ⟨members, hvalue, hlookup⟩ := hsite
  have href : (Value.object members).reference? = some reference :=
    Value.reference?_eq_some_iff.mpr ⟨members, rfl, hlookup⟩
  -- followed in the graph
  have hload := hgathersa.load_of_document? hga a'.files hv.root
  obtain ⟨followed, hfollowed, hchain⟩ := Graph.chain_follow hga (.refl a'.files hga) hload p
  have hcomes : v.Comes [⟨v.id, p⟩] ⟨v.id, p⟩ followed :=
    hgathersa.comes_of_chain hga (fun _ _ hd => hgathersa.load_of_document? hga a'.files hd) hchain rfl hv.root
  -- looked up from the view
  have hsame := hgathersb.sameEnd_resolve hgb b'.files ⟨members, hvalue, hlookup⟩ hcomes
  have hnode : (v.valueAt? ⟨v.id, p⟩).isSome := by
    rw [valueAt?, View.id, hv.root, Option.bind_some, Document.valueAt?, hvalue]
    rfl
  refine ⟨.object members, followed, hvalue, href, (hfollow p).trans hfollowed, ?_⟩
  rw [hresolve, htarget, target?, dereference_of_reference href]
  exact hcomes.standsFor_landed hv hnode hsame

/-- A chain over two files of which the second one is replaced after the view was made.  It is followed without the view
and still ends at the value that the view has. -/
theorem standsFor_of_replaced : ∃ s a b : Session, ∃ v p reference, (⟨"/"⟩ : FilePath).isAbsolute = true ∧
    s.From ⟨"/"⟩ ∧ (ofDocument s.files s.graph ⟨"a.json"⟩).1 = .ok v ∧ s.Sees ⟨"a.json"⟩ a ∧ s.Sees ⟨"a.json"⟩ b ∧
      v.root.document.value.IsSite p reference ∧ b.files.read ⟨"/b.json"⟩ = .ok "0" ∧
      ((a.graph.follow a.files v.id p).1.toOption.bind Resolution.value?).bind Value.string? = some "end" ∧
      ∃ value followed, v.root.document.valueAt? p = some value ∧ value.reference? = some reference ∧
        (a.graph.follow a.files v.id p).1 = .ok followed ∧
        v.StandsFor followed (v.resolve b.files b.graph reference).1 (v.target? b.files b.graph value).1 := by
  let files : FileSystem := ⟨[
    (⟨"/a.json"⟩, "\x7b\"p\":\x7b\"$ref\":\"b.json#/x\"\x7d\x7d"),
    (⟨"/b.json"⟩, "\x7b\"x\":\x7b\"$ref\":\"#/y\"\x7d,\"y\":\"end\"\x7d")], fun _ => "no such file"⟩
  let s : Session := ⟨files, .empty ⟨"/"⟩⟩
  let a : Session := s.run [.loadParsed ⟨"./b.json"⟩]
  let b : Session := (s.step (.view ⟨"a.json"⟩)).run [.insert ⟨"/b.json"⟩ "0"]
  have hbase : (⟨"/"⟩ : FilePath).isAbsolute = true := by decide +kernel
  have hfrom : s.From ⟨"/"⟩ := ⟨files, [], rfl⟩
  have ha : s.Sees ⟨"a.json"⟩ a := .before (by decide +kernel)
  have hb : s.Sees ⟨"a.json"⟩ b := .after _
  have hfacts : ∃ root ∈ (Graph.load files (.empty ⟨"/"⟩) ⟨"a.json"⟩).1.toOption,
      let found := loadTargets files [root.id] root.references.edges (Graph.load files (.empty ⟨"/"⟩) ⟨"a.json"⟩).2
      found.1.length = 1 ∧ (∃ other ∈ found.1.head?, other.id ≠ root.id ∧
        ∀ e ∈ other.references.edges, e.target.document = other.id) ∧
      root.document.value.references = [([.key "p"], "b.json#/x")] ∧
      ((a.graph.follow files root.id [.key "p"]).1.toOption.bind Resolution.value?).bind Value.string?
        = some "end" := by
    decide +kernel
  obtain ⟨root, hroot, hone, ⟨other, hother, hne, hown⟩, hreferences, hend⟩ := hfacts
  obtain ⟨other', hfound⟩ := List.length_eq_one_iff.mp hone
  rw [hfound] at hother
  cases hother
  have hpair := ofDocument_of_pair hroot hfound (List.cons_ne_nil _ _) hne hown
  have hview : (ofDocument s.files s.graph ⟨"a.json"⟩).1 = .ok ⟨root, [other]⟩ := congrArg Prod.fst hpair
  have hdistinct : root.document.value.HasDistinctNames := by
    obtain ⟨hmade, hgathers⟩ := gathers_ofDocument (Graph.consistent_empty hbase) hpair
    exact (hgathers.complete hmade).distinct root (List.mem_cons_self ..)
  have hsite : root.document.value.IsSite [.key "p"] "b.json#/x" :=
    (Value.mem_references_iff hdistinct).mp (by rw [hreferences]; exact List.mem_singleton_self _)
  have hread : (files.insert ⟨"/b.json"⟩ "0").read ⟨"/b.json"⟩ = .ok "0" := by decide +kernel
  exact ⟨s, a, b, ⟨root, [other]⟩, _, _, hbase, hfrom, hview, ha, hb, hsite, hread, hend,
    standsFor hbase hfrom hview ha hb hsite⟩

end View

end ApiLint
