import ApiLint.Proofs.Graph.Consistency

/-!
# Answers stay as they are

What a graph answers to a request does not depend on what else it was asked for.  `Graph.Settled` says so of an
operation: handed a graph that grew out of `g₀`, it answers what `g₀` answers, and all that it does to the graph is
to let it grow.  Operations that are done one after another are settled if each of them is (`Settled.bind`).

Loading is settled (`settled_load`).  The document was known or is fetched, and fetching it again gives the same;
and its table says what is known of the documents that it names, all of which were known or fetched alike
(`Grows.tableOf_eq`).
-/

namespace ApiLint.Graph

/-- From `g₀` on, `m` lets a graph grow and answers what it answers in `g₀`. -/
structure Settled {α : Type} (files : FileSystem) (g₀ : Graph) (m : Graph → α × Graph) : Prop where
  grows : ∀ g, Grows files g₀ g → Grows files g (m g).2
  same : ∀ g, Grows files g₀ g → (m g).1 = (m g₀).1

section

variable {α β : Type} {files : FileSystem} {g₀ g h : Graph} {id : DocumentId} {d : Document}
  {m : Graph → α × Graph}

namespace Settled

theorem pure (files : FileSystem) (g₀ : Graph) (a : α) : Settled files g₀ fun g => (a, g) :=
  ⟨fun _ hg => .refl files hg.consistent, fun _ _ => rfl⟩

/-- What is settled in a graph is settled in every graph that grew out of it. -/
theorem of_grows (hm : Settled files g₀ m) (hg : Grows files g₀ g) : Settled files g m :=
  ⟨fun h hh => hm.grows h (hg.trans hh), fun h hh => (hm.same h (hg.trans hh)).trans (hm.same g hg).symm⟩

/-- One operation after another.  The second may depend on what the first answers. -/
theorem bind {k : α → Graph → β × Graph} {m' : Graph → β × Graph} (hg₀ : g₀.Consistent) (hm : Settled files g₀ m)
    (h : ∀ g, m' g = k (m g).1 (m g).2) (hk : Settled files g₀ (k (m g₀).1)) : Settled files g₀ m' := by
  have hrun : ∀ g, Grows files g₀ g → Grows files g (m' g).2 ∧ (m' g).1 = (k (m g₀).1 g₀).1 := by
    intro g hg
    have hfirst := hm.grows g hg
    have hsecond := hg.trans hfirst
    rw [h, hm.same g hg]
    exact ⟨hfirst.trans (hk.grows _ hsecond), hk.same _ hsecond⟩
  refine ⟨fun g hg => (hrun g hg).1, fun g hg => ?_⟩
  rw [(hrun g hg).2, (hrun g₀ (.refl files hg₀)).2]

theorem map {f : α → β} (hm : Settled files g₀ m) : Settled files g₀ fun g => (f (m g).1, (m g).2) :=
  ⟨hm.grows, fun g hg => congrArg f (hm.same g hg)⟩

end Settled

/-! ### Loading -/

/-- What two graphs of common origin know of an id is the same. -/
theorem Grows.outcome?_eq (hg : Grows files g₀ g) (hh : Grows files g₀ h) (hid : id ∈ g.ids) (hid' : id ∈ h.ids) :
    g.outcome? id = h.outcome? id := by
  by_cases hold : id ∈ g₀.ids
  · obtain ⟨o, ho⟩ := mem_ids_iff.mp hold
    rw [hg.outcome? ho, hh.outcome? ho]
  · obtain ⟨o, ho⟩ := mem_ids_iff.mp hid
    obtain ⟨o', ho'⟩ := mem_ids_iff.mp hid'
    rw [ho, ho', hg.fetched id o hold ho, hh.fetched id o' hold ho']

/-- Two graphs of common origin that know the documents which `d` names have the same table for it. -/
theorem Grows.tableOf_eq (hg : Grows files g₀ g) (hh : Grows files g₀ h) (hd : ∀ id ∈ g.targets d, id ∈ g.ids)
    (hd' : ∀ id ∈ h.targets d, id ∈ h.ids) : g.tableOf d = h.tableOf d := by
  refine ReferenceTable.ofSites_congr fun s hs => ?_
  have htarget : ∀ k, Grows files g₀ k → k.target? d s.2 = g₀.target? d s.2 := fun k hk => hk.toExtends.target? d s.2
  rw [known, known, htarget g hg, htarget h hh]
  cases hid : g₀.target? d s.2 with
  | none => rfl
  | some id =>
    have hmem : ∀ k, Grows files g₀ k → id ∈ k.targets d := by
      intro k hk
      exact List.mem_filterMap.mpr ⟨s, hs, (htarget k hk).trans hid⟩
    rw [Option.bind_some, Option.bind_some,
      hg.outcome?_eq hh (hd id (hmem g hg)) (hd' id (hmem h hh))]

theorem settled_loadParsed (hg₀ : g₀.Consistent) (files : FileSystem) (p : FilePath) :
    Settled files g₀ fun g => g.loadParsed files p := by
  refine ⟨fun g hg => (asks_loadParsed files g p).grows hg.consistent, fun g hg => ?_⟩
  have hknown := outcome?_loadParsed files g p
  have hknown₀ := outcome?_loadParsed files g₀ p
  rw [hg.toExtends.canonical] at hknown
  have hsame := (hg.trans ((asks_loadParsed files g p).grows hg.consistent)).outcome?_eq
    ((asks_loadParsed files g₀ p).grows hg₀) (mem_ids_iff.mpr ⟨_, hknown⟩) (mem_ids_iff.mpr ⟨_, hknown₀⟩)
  rw [hknown, hknown₀] at hsame
  exact Option.some.inj hsame

/-- **Loading a path is settled**: the document and its table are the same whatever was loaded since. -/
theorem settled_load (hg₀ : g₀.Consistent) (files : FileSystem) (p : FilePath) :
    Settled files g₀ fun g => g.load files p := by
  refine ⟨fun g hg => (hg.consistent.loading files p).toGrows, fun g hg => ?_⟩
  have hload := hg.consistent.loading files p
  have hload₀ := hg₀.loading files p
  have hdocument : (g.load files p).1.map Loaded.document = (g₀.load files p).1.map Loaded.document := by
    rw [map_load, map_load]
    exact (settled_loadParsed hg₀ files p).same g hg
  cases hanswer : (g.load files p).1 with
  | error e =>
    rw [hanswer] at hdocument
    cases hanswer₀ : (g₀.load files p).1 with
    | error e₀ =>
      rw [hanswer₀] at hdocument
      cases hdocument
      rfl
    | ok l₀ =>
      rw [hanswer₀] at hdocument
      cases hdocument
  | ok l =>
    rw [hanswer] at hdocument
    cases hanswer₀ : (g₀.load files p).1 with
    | error e₀ =>
      rw [hanswer₀] at hdocument
      cases hdocument
    | ok l₀ =>
      rw [hanswer₀] at hdocument
      have hsame : l.document = l₀.document := Except.ok.inj hdocument
      obtain ⟨htargets, htable⟩ := hload.consistent.table_eq (hload.holds l hanswer)
      obtain ⟨htargets₀, htable₀⟩ := hload₀.consistent.table_eq (hload₀.holds l₀ hanswer₀)
      rw [hsame] at htargets htable
      have htables := (hg.trans hload.toGrows).tableOf_eq hload₀.toGrows htargets htargets₀
      obtain ⟨document, references⟩ := l
      obtain ⟨document₀, references₀⟩ := l₀
      simp only at hsame htable htable₀
      rw [hsame, htable, htable₀, htables]

/-- What fails at the first request fails under the id that was asked for. -/
theorem document_of_load_empty {base : FilePath} {p : FilePath} {e : LoadError}
    (h : ((empty base).load files p).1 = .error e) : e.document = FilePath.canonical base p := by
  have hfetch : fetch files (FilePath.canonical base p) = .error e := by
    have hparsed := map_load files (.empty base) p
    rw [h, loadParsed_of_none rfl] at hparsed
    exact hparsed.symm
  rw [fetch] at hfetch
  split at hfetch
  · cases hfetch
    rfl
  · split at hfetch
    · cases hfetch
      rfl
    · cases hfetch

theorem load_of_mem_toOption {p : FilePath} {l : Loaded} (h : l ∈ (g.load files p).1.toOption) :
    (g.load files p).1 = .ok l := by
  cases hload : (g.load files p).1 with
  | error e =>
    rw [hload] at h
    cases h
  | ok l' =>
    rw [hload] at h
    rw [Option.some.inj h]

theorem load_eq_of_mem_toOption {p : FilePath} {l : Loaded} (h : l ∈ (g.load files p).1.toOption) :
    g.load files p = (.ok l, (g.load files p).2) :=
  Prod.ext (load_of_mem_toOption h) rfl

/-- A document that is there is answered as it is there, and nothing changes. -/
theorem Consistent.load_of_holds {l : Loaded} (hg : g.Consistent) (hl : g.Holds l) (files : FileSystem) :
    g.load files l.id = (.ok l, g) := by
  have hid : g.canonical l.id = l.id := hg.canonical _ (mem_ids_iff.mpr ⟨_, hl.document⟩)
  rw [load_eq, loadParsed_of_some (hid.symm ▸ hl.document)]
  dsimp only
  rw [show g.table? l.document.id = some l.references from hl.references]

/-! ### What a graph would load -/

/-- The document is what `g` loads under its id. -/
def Yields (files : FileSystem) (g : Graph) (l : Loaded) : Prop :=
  (g.load files l.id).1 = .ok l

theorem yields_of_load {p : FilePath} {l : Loaded} (hg : g.Consistent) (h : (g.load files p).1 = .ok l) :
    g.Yields files l := by
  have hload := hg.loading files p
  have hsame := (settled_load hg files l.id).same _ hload.toGrows
  rw [hload.consistent.load_of_holds (hload.holds l h)] at hsame
  exact hsame.symm

/-- What loads the same as before. -/
theorem Yields.grows {l : Loaded} (hg₀ : g₀.Consistent) (hl : g₀.Yields files l) (hg : Grows files g₀ g) :
    g.Yields files l :=
  ((settled_load hg₀ files l.id).same g hg).trans hl

/-- An id under which a document is loaded is canonical, and it is the id of the document. -/
theorem Consistent.id_of_load {p : FilePath} {l : Loaded} (hg : g.Consistent) (h : (g.load files p).1 = .ok l) :
    l.id = g.canonical p := by
  have hload := hg.loading files p
  have hanswered := hload.answered
  rw [h] at hanswered
  exact hload.consistent.id_eq hanswered

theorem Yields.canonical {l : Loaded} (hg : g.Consistent) (hl : g.Yields files l) : g.canonical l.id = l.id :=
  (hg.id_of_load hl).symm

/-- What an edge of a document leads to would be loaded. -/
theorem Yields.target {l : Loaded} {e : Edge} (hg : g.Consistent) (hl : g.Yields files l)
    (he : e ∈ l.references.edges) :
    ∃ next, (g.load files e.target.document).1 = .ok next ∧ next.id = e.target.document ∧
      (next.document.valueAt? e.target.path).isSome := by
  have hload := hg.loading files l.id
  obtain ⟨d, hd, hnode⟩ := hload.consistent.target (hload.holds l hl) he
  obtain ⟨next, hnext, rfl⟩ := hload.consistent.load_of_known files hd
  rw [(settled_load hg files _).same _ hload.toGrows] at hnext
  exact ⟨next, hnext, hload.consistent.id_eq hd, hnode⟩

/-- Loading a document and going on with it. -/
theorem Settled.of_load {onError : LoadError → α} {k : Loaded → Graph → α × Graph} (hg₀ : g₀.Consistent)
    (p : FilePath)
    (h : ∀ g, m g = match g.load files p with
      | (.error e, g) => (onError e, g)
      | (.ok l, g) => k l g)
    (hk : ∀ l, g₀.Yields files l → Settled files g₀ (k l)) : Settled files g₀ m := by
  refine .bind hg₀ (settled_load hg₀ files p)
    (k := fun answer g => match answer with
      | .error e => (onError e, g)
      | .ok l => k l g) (fun g => ?_) ?_
  · rw [h]
    cases g.load files p with
    | mk answer after => cases answer <;> rfl
  · cases hanswer : (g₀.load files p).1 with
    | error e => exact .pure files g₀ (onError e)
    | ok l => exact hk l (yields_of_load hg₀ hanswer)

end

end ApiLint.Graph
