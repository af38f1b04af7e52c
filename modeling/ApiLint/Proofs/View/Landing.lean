import ApiLint.Proofs.View.Cycles
import ApiLint.Proofs.View.Lookup

/-!
# Where references land

In a view without circles every chain of references ends, and looking a value up from the viewed document comes to the
end of its chain.  `View.Lands` lists what may come of it: the value is no reference, the end is come to for the first
time, it was come to before, or the reference there designates no node.  For this a reference must designate, read in
the viewed document, what it designates where it is written (`View.lands_dereference`); for a reference of the viewed
document that is so (`Graph.Consistent.locate_eq_edge?`).
-/

namespace ApiLint

open Relation (ReflTransGen TransGen)

variable {files : FileSystem} {g : Graph}

/-! ### References and edges -/

theorem ReferenceTable.found_of_mem_edges {found : Path × String → Except ReferenceError Location}
    {sites : List (Path × String)} {e : Edge} (h : e ∈ (ofSites found sites).edges) : found e.site = .ok e.target := by
  obtain ⟨s, -, hs⟩ := List.mem_filterMap.mp h
  cases hfound : found s with
  | error error =>
    rw [hfound] at hs
    cases hs
  | ok target =>
    rw [hfound] at hs
    cases hs
    exact hfound

namespace Graph

/-- Where a reference is written decides at most over its error. -/
theorem toOption_designated (source : Document) (origin origin' : Path) (reference : String)
    (named : Option (DocumentId × Except LoadError Document)) :
    (designated source origin reference named).toOption = (designated source origin' reference named).toOption := by
  have hpointed : ∀ tokens target, (pointed source origin reference tokens target).toOption
      = (pointed source origin' reference tokens target).toOption := by
    intro tokens target
    rw [pointed, pointed]
    cases target.value.follow? tokens <;> rfl
  rw [designated, designated]
  cases Reference.ofText? reference with
  | none => rfl
  | some r =>
    cases named with
    | none => exact hpointed _ _
    | some n =>
      obtain ⟨id, outcome⟩ := n
      cases outcome with
      | error e => rfl
      | ok target => exact hpointed _ _

/-- **A reference designates the target of its edge**, and without an edge it designates nothing. -/
theorem Consistent.locate_eq_edge? (hg : g.Consistent) {l : Loaded} (hl : g.Holds l) {p : Path} {r : String}
    (hsite : l.document.value.IsSite p r) (files : FileSystem) (origin : Path) :
    (g.locate files l.document origin r).1.toOption = (l.references.edge? p).map Edge.target := by
  obtain ⟨htargets, htable⟩ := hg.table_eq hl
  obtain ⟨hpartitions, -⟩ := hg.partitions hl
  have hknown : (g.locate files l.document p r).1 = g.known l.document (p, r) := by
    have hasks := asks_locate hg.absolute files l.document (p, r)
    rw [locate_eq_known hg.absolute l.document (p, r) (.refl _)]
    refine hasks.toExtends.known_eq fun id hid => htargets id ?_
    have hmem := (Value.mem_references_iff (hg.hasDistinctNames hl)).mpr hsite
    exact List.mem_filterMap.mpr ⟨(p, r), hmem, hid⟩
  have horigin : (g.locate files l.document origin r).1.toOption = (g.locate files l.document p r).1.toOption := by
    rw [locate_eq, locate_eq]
    cases g.target? l.document r with
    | none => exact toOption_designated l.document origin p r none
    | some id => exact toOption_designated l.document origin p r (some (id, _))
  rw [horigin, hknown]
  rcases List.mem_append.mp ((hpartitions.sites p r).mpr hsite) with hedge | herror
  · obtain ⟨e, he, heq⟩ := List.mem_map.mp hedge
    obtain ⟨rfl, rfl⟩ := Prod.mk.inj heq
    have hfound : l.references.edge? e.origin = some e :=
      find?_key (List.nodup_append.mp hpartitions.once).1 he
    rw [htable] at he
    have htarget : g.known l.document (e.origin, e.reference) = .ok e.target :=
      ReferenceTable.found_of_mem_edges he
    rw [hfound, htarget]
    rfl
  · obtain ⟨e, he, heq⟩ := List.mem_map.mp herror
    obtain ⟨rfl, rfl⟩ := Prod.mk.inj heq
    have hnone := hpartitions.edge?_eq_none he
    rw [htable] at he
    obtain ⟨s, -, hs⟩ := ReferenceTable.exists_site_of_error he
    obtain rfl : s = (e.origin, e.reference) := (designated_error hs).2.symm
    rw [hnone, hs]
    rfl

end Graph

namespace View

variable {v : View}

/-! ### Jumps -/

theorem Jump.unique {l t t' : Location} (h : v.Jump l t) (h' : v.Jump l t') : t = t' := by
  obtain ⟨e, he, rfl⟩ := h
  obtain ⟨e', he', rfl⟩ := h'
  cases he.symm.trans he'
  rfl

theorem Jump.rightUnique (v : View) : Relator.RightUnique v.Jump :=
  fun _ _ _ => Jump.unique

/-- From the end of a chain nothing is jumped to. -/
theorem eq_of_end {l t : Location} (hend : v.edge? l = none) (h : ReflTransGen v.Jump l t) : l = t := by
  rcases h.cases_head with heq | ⟨u, ⟨e, he, -⟩, -⟩
  · exact heq
  · cases hend.symm.trans he

/-- A chain has one end. -/
theorem end_unique {l t t' : Location} (h : ReflTransGen v.Jump l t) (hend : v.edge? t = none)
    (h' : ReflTransGen v.Jump l t') (hend' : v.edge? t' = none) : t = t' := by
  rcases ReflTransGen.total_of_right_unique (Jump.rightUnique v) h h' with hrest | hrest
  · exact eq_of_end hend hrest
  · exact (eq_of_end hend' hrest).symm

theorem steps_of_jumps {l t : Location} (h : ReflTransGen v.Jump l t) : ReflTransGen v.Step l t := by
  induction h with
  | refl => exact .refl
  | tail _ hjump ih =>
    obtain ⟨e, he, rfl⟩ := hjump
    exact ih.tail (.jump he)

theorem Gathers.holds_of_document? (h : Gathers g v.documents []) {id : DocumentId} {d : Loaded}
    (hd : v.document? id = some d) : g.Holds d :=
  h.held d (List.mem_append_left _ (List.mem_of_find?_eq_some hd))

/-- A document of the view is what loading comes to. -/
theorem Gathers.load_of_document? (h : Gathers g v.documents []) (hg : g.Consistent) (files : FileSystem)
    {id : DocumentId} {d : Loaded} (hd : v.document? id = some d) : (g.load files id).1 = .ok d := by
  have hload := congrArg Prod.fst (hg.load_of_holds (h.holds_of_document? hd) files)
  rwa [key_of_find? hd] at hload

theorem Gathers.exists_document (h : Gathers g v.documents []) {l : Location} {w : Value}
    (hw : v.valueAt? l = some w) :
    ∃ d, v.document? l.document = some d ∧ g.Holds d ∧ d.id = l.document ∧
      d.document.value.get? l.path = some w := by
  obtain ⟨d, hd, hvalue⟩ := Option.bind_eq_some_iff.mp hw
  exact ⟨d, hd, h.holds_of_document? hd, key_of_find? hd, hvalue⟩

/-- An error stands at a reference object. -/
theorem Gathers.isSome_reference?_of_error? (h : Gathers g v.documents []) (hg : g.Consistent) {l : Location}
    {w : Value} (hw : v.valueAt? l = some w) {d : Loaded} (hd : v.document? l.document = some d) {e : ReferenceError}
    (he : d.references.error? l.path = some e) : (w.reference?).isSome := by
  obtain ⟨d', hd', hheld, -, hnode⟩ := h.exists_document hw
  cases hd.symm.trans hd'
  have hsite : (e.origin, e.reference) ∈ d.references.unresolved.map ReferenceError.site :=
    List.mem_map.mpr ⟨e, List.mem_of_find?_eq_some he, rfl⟩
  obtain ⟨members, hmembers, href⟩ :=
    ((hg.partitions hheld).1.sites e.origin e.reference).mp (List.mem_append_right _ hsite)
  rw [show e.origin = l.path from key_of_find? he, hnode] at hmembers
  rw [Value.reference?_eq_some_iff.mpr ⟨members, Option.some.inj hmembers, href⟩]
  rfl

/-! ### Chains in a view -/

section

variable {visited : List Location} {l t : Location} {r : Resolution}

/-- No edge starts at the place, and this is what following comes to there. -/
inductive Stops (v : View) (t : Location) : Resolution → Prop
  | resolved {d : Loaded} : v.document? t.document = some d → d.references.edge? t.path = none →
    d.references.error? t.path = none → Stops v t (.resolved d.document t.path)
  | unresolved {d : Loaded} {e : ReferenceError} : v.document? t.document = some d →
    d.references.edge? t.path = none → d.references.error? t.path = some e → Stops v t (.unresolved e)

/-- Following the chain that starts at a place, after `visited` was landed on, comes to the given resolution. -/
inductive Comes (v : View) : List Location → Location → Resolution → Prop
  | stops {visited : List Location} {l : Location} {r : Resolution} : v.Stops l r → Comes v visited l r
  | closes {visited : List Location} {l t : Location} : v.Jump l t → t ∈ visited → Comes v visited l (.cycle t)
  | goes {visited : List Location} {l t : Location} {r : Resolution} : v.Jump l t →
    Comes v (t :: visited) t r → Comes v visited l r

theorem edge?_of_document? {d : Loaded} (hd : v.document? l.document = some d) :
    v.edge? l = d.references.edge? l.path := by
  rw [edge?, hd, Option.bind_some]

theorem Stops.edge?_eq_none (h : v.Stops t r) : v.edge? t = none := by
  cases h with
  | resolved hd hedge _ => rw [edge?_of_document? hd, hedge]
  | unresolved hd hedge _ => rw [edge?_of_document? hd, hedge]

/-- Following comes to the end of the chain, or to a place that was visited before or that leads back to itself. -/
theorem Comes.ending (h : v.Comes visited l r) : (∃ t, ReflTransGen v.Jump l t ∧ v.Stops t r) ∨
    ∃ t, r = .cycle t ∧ TransGen v.Jump l t ∧ (t ∈ visited ∨ TransGen v.Jump t t) := by
  induction h with
  | stops hstop => exact .inl ⟨_, .refl, hstop⟩
  | closes hjump hvisited => exact .inr ⟨_, rfl, .single hjump, .inl hvisited⟩
  | goes hjump _ ih =>
    rcases ih with ⟨u, hjumps, hstop⟩ | ⟨u, hr, hjumps, hback⟩
    · exact .inl ⟨u, .head hjump hjumps, hstop⟩
    · refine .inr ⟨u, hr, .head hjump hjumps, ?_⟩
      rcases hback with hvisited | hback
      · rcases List.mem_cons.mp hvisited with rfl | hvisited
        -- the chain came back to where this step landed
        · exact .inr hjumps
        · exact .inl hvisited
      · exact .inr hback

/-- Followed from its start, a chain has an end, or it leads to a place from which it leads back. -/
theorem Comes.ending_of_self (h : v.Comes [l] l r) : (∃ t, ReflTransGen v.Jump l t ∧ v.Stops t r) ∨
    ∃ t, r = .cycle t ∧ ReflTransGen v.Jump l t ∧ TransGen v.Jump t t := by
  rcases h.ending with hstops | ⟨t, hr, hjumps, hvisited | hback⟩
  · exact .inl hstops
  · obtain rfl := List.mem_singleton.mp hvisited
    exact .inr ⟨t, hr, .refl, hjumps⟩
  · exact .inr ⟨t, hr, hjumps.to_reflTransGen, hback⟩

/-- **What following comes to can be read off the view.** -/
theorem Gathers.comes_of_chain (h : Gathers g v.documents []) (hg : g.Consistent)
    {answer : DocumentId → Except LoadError Loaded}
    (hanswer : ∀ id d, v.document? id = some d → answer id = .ok d) {d : Loaded} {p : Path}
    (hchain : Graph.Chain answer visited d p r) (hp : l.path = p) (hd : v.document? l.document = some d) :
    v.Comes visited l r := by
  induction hchain generalizing l with
  | ends hedge herror =>
    subst hp
    exact .stops (.resolved hd hedge herror)
  | fails hedge herror =>
    subst hp
    exact .stops (.unresolved hd hedge herror)
  | closes hedge hvisited =>
    subst hp
    exact .closes ⟨_, (edge?_of_document? hd).trans hedge, rfl⟩ hvisited
  | @goes _ _ _ _ e _ hedge _ hnext _ ih =>
    subst hp
    have he := (edge?_of_document? hd).trans hedge
    -- the next document is the one of the view
    obtain ⟨w, hw⟩ := Option.isSome_iff_exists.mp ((h.complete hg).target l e he)
    obtain ⟨next', hnext', -⟩ := h.exists_document hw
    cases hnext.symm.trans (hanswer _ _ hnext')
    exact .goes ⟨e, he, rfl⟩ (ih rfl hnext')

end

/-! ### Chains without circles -/

/-- What following a chain comes to in a view: the node at its end, unless a reference stands there that designates
nothing. -/
inductive Ends (v : View) (l : Location) : Resolution → Prop
  | resolved {t : Location} {w : Value} {d : Document} : ReflTransGen v.Jump l t → v.edge? t = none →
    v.valueAt? t = some w → d.id = t.document → Ends v l (.resolved d t.path)
  | dangling {t : Location} {w : Value} {e : ReferenceError} : ReflTransGen v.Jump l t → v.edge? t = none →
    v.valueAt? t = some w → (w.reference?).isSome → Ends v l (.unresolved e)

theorem Ends.head {l t : Location} {r : Resolution} (hjump : v.Jump l t) (h : v.Ends t r) : v.Ends l r := by
  cases h with
  | resolved hjumps hend hw hid => exact .resolved (.head hjump hjumps) hend hw hid
  | dangling hjumps hend hw href => exact .dangling (.head hjump hjumps) hend hw href

/-- **Without circles every chain ends**, and all of it lies in the view. -/
theorem Comes.ends {l : Location} {r : Resolution} (hcomes : v.Comes [l] l r) (h : Gathers g v.documents [])
    (hg : g.Consistent) (hacyclic : v.Acyclic) (hl : (v.valueAt? l).isSome) : v.Ends l r := by
  rcases hcomes.ending_of_self with ⟨t, hjumps, hstop⟩ | ⟨t, -, -, hback⟩
  · have hend := hstop.edge?_eq_none
    obtain ⟨w, hw⟩ : ∃ w, v.valueAt? t = some w := by
      refine Option.isSome_iff_exists.mp ?_
      rcases hjumps.cases_tail with rfl | ⟨u, -, e, he, rfl⟩
      · exact hl
      · exact (h.complete hg).target u e he
    cases hstop with
    | @resolved d hd _ _ =>
      have hid : d.id = t.document := key_of_find? hd
      exact .resolved hjumps hend hw hid
    | unresolved hd _ herror =>
      exact .dangling hjumps hend hw (h.isSome_reference?_of_error? hg hw hd herror)
  · obtain ⟨u, ⟨e, he, rfl⟩, hround⟩ := TransGen.head'_iff.mp hback
    exact absurd (steps_of_jumps hround) (hacyclic t e he)

/-! ### Looking values up -/

/-- What may come of looking up the value at `l` when the places `seen` were come to before. -/
inductive Lands (v : View) (seen : List Location) (l : Location) : Option Value × List Location → Prop
  | written {w : Value} : v.valueAt? l = some w → v.edge? l = none → Lands v seen l (some w, seen)
  | fresh {t : Location} {w : Value} : ReflTransGen v.Jump l t → v.edge? t = none → v.valueAt? t = some w →
    t ∉ seen → Lands v seen l (some w, t :: seen)
  | again {t : Location} : ReflTransGen v.Jump l t → v.edge? t = none → t ∈ seen → Lands v seen l (none, seen)
  | dangling {t : Location} {w : Value} : ReflTransGen v.Jump l t → v.edge? t = none → v.valueAt? t = some w →
    (w.reference?).isSome → Lands v seen l (none, seen)

theorem Ends.lands {l : Location} {r : Resolution} (h : v.Ends l r) (seen : List Location) :
    v.Lands seen l (v.landed seen r) := by
  cases h with
  | @resolved t w d hjumps hend hw hid =>
    have hplace : (⟨d.id, t.path⟩ : Location) = t := by rw [hid]
    rw [landed, hplace, hw]
    by_cases hseen : t ∈ seen
    · rw [if_pos hseen]
      exact .again hjumps hend hseen
    · rw [if_neg hseen]
      exact .fresh hjumps hend hw hseen
  | dangling hjumps hend hw href => exact .dangling hjumps hend hw href

/-- Following on from where an edge leads comes to what the chain from there comes to. -/
theorem comes_followTarget (h : Gathers g v.documents []) (hg : g.Consistent) {g' : Graph}
    (hg' : Graph.Grows files g g') {l : Location} {e : Edge} (he : v.edge? l = some e) :
    v.Comes [e.target] e.target (v.followTarget files g' e.target).1 := by
  obtain ⟨w, hw⟩ := Option.isSome_iff_exists.mp ((h.complete hg).target l e he)
  obtain ⟨d, hd, hheld, hid, -⟩ := h.exists_document hw
  have hload := hg'.consistent.load_of_holds (hheld.extend hg'.toExtends) files
  rw [hid] at hload
  have hanswer : ∀ id d, v.document? id = some d → (g.load files id).1 = .ok d :=
    fun _ _ hd => h.load_of_document? hg files hd
  have hyields : g.Yields files d := by rw [Graph.Yields, hg.load_of_holds hheld files]
  obtain ⟨hchain, -⟩ := Graph.chain_followLoaded hg hg' hyields e.target.path
  rw [hid] at hchain
  simp only [followTarget, hload]
  exact h.comes_of_chain hg hanswer hchain rfl hd

/-- Following the edge that starts at `l` comes to the end of the chain. -/
theorem ends_followTarget (h : Gathers g v.documents []) (hg : g.Consistent) (hacyclic : v.Acyclic) {g' : Graph}
    (hg' : Graph.Grows files g g') {l : Location} {e : Edge} (he : v.edge? l = some e) :
    v.Ends l (v.followTarget files g' e.target).1 :=
  .head ⟨e, he, rfl⟩ ((comes_followTarget h hg hg' he).ends h hg hacyclic ((h.complete hg).target l e he))

/-- **Looking a value up comes to the end of its chain**, if its reference reads in the viewed document as where it is
written. -/
theorem lands_dereference (h : Gathers g v.documents []) (hg : g.Consistent) (hacyclic : v.Acyclic) {l : Location}
    {value : Value} (hvalue : v.valueAt? l = some value)
    (hreads : ∀ r, value.reference? = some r →
      (g.locate files v.root.document [] r).1.toOption = (v.edge? l).map Edge.target)
    (seen : List Location) :
    v.Lands seen l ((v.dereference files g seen value).1, (v.dereference files g seen value).2.1) := by
  cases hr : value.reference? with
  | none =>
    have hend : v.edge? l = none := by
      cases hedge : v.edge? l with
      | none => rfl
      | some e =>
        obtain ⟨w, hw, href⟩ := (h.complete hg).origin l e hedge
        cases hvalue.symm.trans hw
        rw [hr] at href
        cases href
    simp only [dereference, hr]
    exact .written hvalue hend
  | some r =>
    have hlocate := hreads r hr
    have hgrown := (Graph.settled_locate hg files v.root.document [] r).grows g (.refl files hg)
    rw [dereference_of_reference hr]
    refine Ends.lands ?_ seen
    rw [resolve]
    cases hfound : g.locate files v.root.document [] r with
    | mk found after =>
      rw [hfound] at hlocate hgrown
      cases found with
      | error e =>
        -- nothing is designated, and so the chain ends where it starts
        have hend := Option.map_eq_none_iff.mp hlocate.symm
        exact .dangling .refl hend hvalue (by rw [hr]; rfl)
      | ok target =>
        obtain ⟨e, hedge, rfl⟩ := Option.map_eq_some_iff.mp hlocate.symm
        exact ends_followTarget h hg hacyclic hgrown hedge

end View

end ApiLint
