import ApiLint.Proofs.Graph.Histories
import ApiLint.Proofs.View.Answers
import ApiLint.Work

/-!
# Work among others

`Work.Meets` says what comes of work when others work on the same graph.  All that is known of the others is that they let
the graph grow, and this is what the work has to do as well.  It waits for nobody while it resolves references itself, nor
while nobody else does; and what it was to resolve is there when it is done.

`Work.Ensures` is the case of work that begins and ends with nothing half resolved.  Loading a document is such work, and
whatever the others load, it comes to what loading it alone comes to (`ensures_load`).  So does making a view
(`gives_view`).
-/

namespace ApiLint

open ApiLint.Graph (Grows Settled Yields)

namespace Graph

variable {files : FileSystem} {g : Graph} {d : Document} {id : DocumentId} {t : ReferenceTable}

/-- Recording references once more changes nothing. -/
theorem Consistent.setReferences_of_table (hg : g.Consistent) (ht : g.table? id = some t) : g.setReferences id t = g := by
  have hentries : g.entries.map (fun e => if e.id = id then { e with references := some t } else e) = g.entries := by
    refine (List.map_congr_left fun e he => ?_).trans (List.map_id _)
    split
    · next hid =>
      have hentry : g.entry? id = some e := hid ▸ find?_key hg.nodup he
      rw [table?, hentry, Option.bind_some] at ht
      rw [← ht]
      rfl
    · rfl
  show { g with entries := _ } = g
  rw [hentries]

/-- The references of a document may be recorded as soon as all that they name is known. -/
theorem Consistent.grows_setReferences (hg : g.Consistent) (hd : g.outcome? d.id = some (.ok d))
    (htargets : ∀ i ∈ g.targets d, i ∈ g.ids) (files : FileSystem) :
    Grows files g (g.setReferences d.id (g.tableOf d)) := by
  cases ht : g.table? d.id with
  | none =>
    refine ⟨.setReferences ht _, hg.setReferences hd htargets ht, fun i o hnew ho => ?_⟩
    rw [outcome?_setReferences] at ho
    exact absurd (mem_ids_iff.mpr ⟨o, ho⟩) hnew
  | some t =>
    have hsame := (hg.table_eq (l := ⟨d, t⟩) ⟨hd, ht⟩).2
    rw [show g.tableOf d = t from hsame.symm, hg.setReferences_of_table ht]
    exact .refl files hg

end Graph

namespace Work

variable {α β : Type} {files : FileSystem} {g₀ g h : Graph} {cell : Option DocumentId} {w : Work α}

/-! ### What work is to do -/

/-- An action of a worker that resolves the references of the document `cell`, if it resolves any, and those of `cell'`
afterwards. -/
structure Orderly (files : FileSystem) (g : Graph) (cell : Option DocumentId) (ready : Shared → Bool)
    (effect : Shared → Shared) (cell' : Shared → Option DocumentId) : Prop where
  /-- It waits for others only while these resolve references, and not while the worker does. -/
  waits : ∀ s, Grows files g s.graph → cell.isSome = true ∨ s.resolving = [] → ready s = true
  grows : ∀ s, Grows files g s.graph → ready s = true → Grows files s.graph (effect s).graph
  /-- What is being resolved afterwards is resolved by this worker, or was resolved by another one before. -/
  cells : ∀ s, Grows files g s.graph → ready s = true → ∀ id ∈ (effect s).resolving,
    cell' s = some id ∨ id ∈ s.resolving ∧ cell ≠ some id

/-- Whatever others load since `g`, the work comes to an end, and then `post` holds from there on. -/
inductive Meets (files : FileSystem) (post : α → Graph → Option DocumentId → Prop) :
    Graph → Option DocumentId → Work α → Prop
  | done {g : Graph} {cell : Option DocumentId} {a : α} : (∀ h, Grows files g h → post a h cell) →
    Meets files post g cell (.done a)
  | act {g : Graph} {cell : Option DocumentId} {ready : Shared → Bool} {effect : Shared → Shared}
    {next : Shared → Work α} (cell' : Shared → Option DocumentId) : Orderly files g cell ready effect cell' →
    (∀ s, Grows files g s.graph → ready s = true → Meets files post (effect s).graph (cell' s) (next s)) →
    Meets files post g cell (.act ready effect next)

theorem Orderly.of_grows {ready : Shared → Bool} {effect : Shared → Shared} {cell' : Shared → Option DocumentId}
    (ho : Orderly files g cell ready effect cell') (hgh : Grows files g h) : Orderly files h cell ready effect cell' :=
  ⟨fun s hs => ho.waits s (hgh.trans hs), fun s hs => ho.grows s (hgh.trans hs), fun s hs => ho.cells s (hgh.trans hs)⟩

namespace Meets

variable {post : α → Graph → Option DocumentId → Prop}

theorem of_grows (hw : w.Meets files post g cell) (hgh : Grows files g h) : w.Meets files post h cell := by
  cases hw with
  | done hpost => exact .done fun k hk => hpost k (hgh.trans hk)
  | act cell' ho hnext => exact .act cell' (ho.of_grows hgh) fun s hs => hnext s (hgh.trans hs)

theorem mono {post' : α → Graph → Option DocumentId → Prop} (hw : w.Meets files post g cell)
    (h : ∀ a h cell, post a h cell → post' a h cell) : w.Meets files post' g cell := by
  induction hw with
  | done hpost => exact .done fun k hk => h _ k _ (hpost k hk)
  | act cell' ho _ ih => exact .act cell' ho ih

/-- One piece of work after another. -/
theorem bind {k : α → Work β} {post' : β → Graph → Option DocumentId → Prop} (hg : g.Consistent)
    (hw : w.Meets files post g cell)
    (hk : ∀ a h cell, Grows files g h → (∀ h', Grows files h h' → post a h' cell) →
      (k a).Meets files post' h cell) :
    (w >>= k).Meets files post' g cell := by
  induction hw with
  | done hpost => exact hk _ _ _ (.refl files hg) hpost
  | act cell' ho _ ih =>
    refine .act cell' ho fun s hs hready => ?_
    have hgrown := ho.grows s hs hready
    exact ih s hs hready hgrown.consistent fun a h cell hh => hk a h cell (hs.trans (hgrown.trans hh))

theorem pure {a : α} (hpost : ∀ h, Grows files g h → post a h cell) : (Pure.pure a : Work α).Meets files post g cell :=
  .done hpost

/-- An action that lets the graph grow and leaves it to others to resolve references. -/
theorem ask {f : Graph → α × Graph} (hgrows : ∀ h, Grows files g h → Grows files h (f h).2)
    (hpost : ∀ h k, Grows files g h → Grows files (f h).2 k → post (f h).1 k cell) :
    (Work.ask f).Meets files post g cell := by
  refine .act (fun _ => cell) ⟨fun _ _ _ => rfl, fun s hs _ => hgrows _ hs, fun s _ _ id hid => ?_⟩ fun s hs _ =>
    .done fun k hk => hpost _ k hs hk
  by_cases hcell : cell = some id
  · exact .inl hcell
  · exact .inr ⟨hid, hcell⟩

/-- Work does not wait while nobody else resolves anything. -/
theorem alone (hw : w.Meets files post g cell) {s : Shared} (hs : Grows files g s.graph)
    (hcells : ∀ id ∈ s.resolving, cell = some id) :
    ∃ a s' cell', w.alone s = some (a, s') ∧ Grows files s.graph s'.graph ∧ post a s'.graph cell' ∧
      ∀ id ∈ s'.resolving, cell' = some id := by
  induction hw generalizing s with
  | @done g cell a hpost => exact ⟨a, s, cell, rfl, .refl files hs.consistent, hpost _ hs, hcells⟩
  | @act g cell ready effect next cell' ho _ ih =>
    have hready : ready s = true := ho.waits s hs <| by
      cases hresolving : s.resolving with
      | nil => exact .inr rfl
      | cons id ids => exact .inl (by rw [hcells id (hresolving ▸ List.mem_cons_self ..)]; rfl)
    have hgrown := ho.grows s hs hready
    have hmine : ∀ id ∈ (effect s).resolving, cell' s = some id := by
      intro id hid
      rcases ho.cells s hs hready id hid with hown | ⟨hid, hne⟩
      · exact hown
      · exact absurd (hcells id hid) hne
    obtain ⟨a, s', last, halone, hgrows, hpost⟩ := ih s hs hready (.refl files hgrown.consistent) hmine
    refine ⟨a, s', last, ?_, hgrown.trans hgrows, hpost⟩
    rw [Work.alone, if_pos hready, halone]

end Meets

/-- The work leaves nothing half resolved, and ensures `post`. -/
def Ensures (files : FileSystem) (g : Graph) (post : α → Graph → Prop) (w : Work α) : Prop :=
  w.Meets files (fun a h cell => cell = none ∧ post a h) g none

namespace Ensures

variable {post : α → Graph → Prop}

theorem of_grows (hw : w.Ensures files g post) (hgh : Grows files g h) : w.Ensures files h post :=
  Meets.of_grows hw hgh

theorem mono {post' : α → Graph → Prop} (hw : w.Ensures files g post) (h : ∀ a h, post a h → post' a h) :
    w.Ensures files g post' :=
  Meets.mono hw fun a k _ hpost => ⟨hpost.1, h a k hpost.2⟩

theorem pure {a : α} (hpost : ∀ h, Grows files g h → post a h) : (Pure.pure a : Work α).Ensures files g post :=
  .done fun h hh => ⟨rfl, hpost h hh⟩

theorem ask {f : Graph → α × Graph} (hgrows : ∀ h, Grows files g h → Grows files h (f h).2)
    (hpost : ∀ h k, Grows files g h → Grows files (f h).2 k → post (f h).1 k) :
    (Work.ask f).Ensures files g post :=
  Meets.ask hgrows fun h k hh hk => ⟨rfl, hpost h k hh hk⟩

theorem bind {k : α → Work β} {post' : β → Graph → Prop} (hg : g.Consistent) (hw : w.Ensures files g post)
    (hk : ∀ a h, Grows files g h → (∀ h', Grows files h h' → post a h') → (k a).Ensures files h post') :
    (w >>= k).Ensures files g post' := by
  refine Meets.bind hg hw fun a h cell hh hpost => ?_
  obtain rfl := (hpost h (.refl files hh.consistent)).1
  exact hk a h hh fun h' hh' => (hpost h' hh').2

theorem alone (hw : w.Ensures files g post) (hgh : Grows files g h) :
    ∃ a k, w.alone ⟨h, []⟩ = some (a, ⟨k, []⟩) ∧ Grows files h k ∧ post a k := by
  obtain ⟨a, ⟨k, resolving⟩, cell, halone, hgrows, ⟨rfl, hpost⟩, hcells⟩ :=
    Meets.alone hw (s := ⟨h, []⟩) hgh fun _ hid => absurd hid List.not_mem_nil
  obtain rfl : resolving = [] := List.eq_nil_iff_forall_not_mem.mpr fun id hid => nomatch hcells id hid
  exact ⟨a, k, halone, hgrows, hpost⟩

/-- What is ensured for each element is ensured for all of them in order. -/
theorem each {f : α → Work β} {post : α → β → Graph → Prop} (hg : g.Consistent) {xs : List α}
    (h : ∀ x ∈ xs, (f x).Ensures files g (post x)) :
    (Work.each f xs).Ensures files g fun ys h => List.Forall₂ (fun x y => post x y h) xs ys := by
  induction xs generalizing g with
  | nil => exact .pure fun _ _ => .nil
  | cons x xs ih =>
    refine .bind hg (h x (List.mem_cons_self ..)) fun y h₁ hh₁ hy => ?_
    have hrest := ih hh₁.consistent fun x' hx' => (h x' (List.mem_cons_of_mem x hx')).of_grows hh₁
    refine .bind hh₁.consistent hrest fun ys h₂ hh₂ hys => .pure fun h₃ hh₃ => ?_
    exact .cons (hy h₃ (hh₂.trans hh₃)) (hys h₃ hh₃)

end Ensures

/-- The work comes to `a`, whatever others load meanwhile. -/
def Gives (files : FileSystem) (g : Graph) (a : α) (w : Work α) : Prop :=
  w.Ensures files g fun b _ => b = a

namespace Gives

theorem of_grows {a : α} (hw : w.Gives files g a) (hgh : Grows files g h) : w.Gives files h a :=
  Ensures.of_grows hw hgh

theorem pure (files : FileSystem) (g : Graph) (a : α) : (Pure.pure a : Work α).Gives files g a :=
  Ensures.pure fun _ _ => rfl

theorem bind {k : α → Work β} {a : α} {b : β} (hg : g.Consistent) (hw : w.Gives files g a)
    (hk : ∀ h, Grows files g h → (k a).Gives files h b) : (w >>= k).Gives files g b := by
  refine Ensures.bind hg hw fun a' h hh ha => ?_
  obtain rfl := ha h (.refl files hh.consistent)
  exact hk h hh

theorem each {f : α → Work β} {answer : α → β} (hg : g.Consistent) {xs : List α}
    (h : ∀ x ∈ xs, (f x).Gives files g (answer x)) : (Work.each f xs).Gives files g (xs.map answer) := by
  induction xs generalizing g with
  | nil => exact .pure files g []
  | cons x xs ih =>
    refine .bind hg (h x (List.mem_cons_self ..)) fun h₁ hh₁ => ?_
    have hrest := ih hh₁.consistent fun x' hx' => (h x' (List.mem_cons_of_mem x hx')).of_grows hh₁
    exact .bind hh₁.consistent hrest fun h₂ _ => .pure files h₂ _

end Gives

/-! ### Loading documents -/

/-- The table that is made says what is known of the references, and all that they name is known. -/
theorem meets_resolveAll (hg : g.Consistent) (files : FileSystem) (d : Document) (sites : List (Path × String))
    (cell : Option DocumentId) :
    (resolveAll files d sites).Meets files (fun table h c => c = cell ∧
      (∀ s ∈ sites, ∀ id, h.target? d s.2 = some id → id ∈ h.ids) ∧ table = .ofSites (h.known d) sites) g cell := by
  induction sites generalizing g with
  | nil => exact .pure fun h _ => ⟨rfl, fun s hs => absurd hs List.not_mem_nil, rfl⟩
  | cons s sites ih =>
    have hlocate : (ask fun g => g.locate files d s.1 s.2).Meets files (fun found h c => c = cell ∧
        (∀ id, h.target? d s.2 = some id → id ∈ h.ids) ∧ found = h.known d s) g cell := by
      refine .ask (fun h hh => (Graph.asks_locate hh.consistent.absolute files d s).grows hh.consistent)
        fun h k hh hk => ?_
      have hasks := Graph.asks_locate hh.consistent.absolute files d s
      refine ⟨rfl, fun id hid => ?_, Graph.locate_eq_known hh.consistent.absolute d s hk.toExtends⟩
      rw [(hasks.toExtends.trans hk.toExtends).target?] at hid
      refine hk.toExtends.ids.subset ?_
      rw [hasks.ids_eq, Graph.mem_foldl_enlist, hid]
      exact .inr (List.mem_singleton_self id)
    refine .bind hg hlocate fun found h c hh hlocated => ?_
    obtain rfl := (hlocated h (.refl files hh.consistent)).1
    refine .bind hh.consistent (ih hh.consistent) fun table k c hk hresolved => .pure fun k' hk' => ?_
    obtain ⟨-, htarget, hfound⟩ := hlocated k' (hk.trans hk')
    obtain ⟨rfl, htargets, rfl⟩ := hresolved k' hk'
    refine ⟨rfl, List.forall_mem_cons.mpr ⟨htarget, htargets⟩, ?_⟩
    rw [hfound]
    exact (ReferenceTable.ofSites_cons (k'.known d) s sites).symm

section

variable {d : Document}

/-- Whoever has resolved the references of a document records them. -/
theorem meets_record (hd : g.outcome? d.id = some (.ok d)) (htargets : ∀ id ∈ g.targets d, id ∈ g.ids) :
    (record d.id (g.tableOf d)).Meets files (fun table h c => c = none ∧ h.Holds ⟨d, table⟩) g (some d.id) := by
  have hrecorded : ∀ s : Shared, Grows files g s.graph →
      Grows files s.graph (s.graph.setReferences d.id (g.tableOf d)) := by
    intro s hs
    rw [← hs.toExtends.tableOf_eq htargets]
    refine hs.consistent.grows_setReferences (hs.toExtends.outcome? hd) (fun i hi => ?_) files
    rw [hs.toExtends.targets] at hi
    exact hs.toExtends.ids.subset (htargets i hi)
  refine .act (fun _ => none) ⟨fun _ _ _ => rfl, fun s hs _ => hrecorded s hs, fun s _ _ id hid => ?_⟩
    fun s hs _ => .done fun k hk => ⟨rfl, ?_⟩
  · obtain ⟨hid, hne⟩ := List.mem_filter.mp hid
    refine .inr ⟨hid, fun heq => of_decide_eq_true hne (Option.some.inj heq).symm⟩
  · have hknown := hs.toExtends.outcome? hd
    have hholds : (s.graph.setReferences d.id (g.tableOf d)).Holds ⟨d, g.tableOf d⟩ :=
      ⟨by rw [Graph.outcome?_setReferences]; exact hknown, by
        rw [Graph.table?_setReferences]
        exact if_pos ⟨rfl, Graph.mem_ids_iff.mpr ⟨_, hknown⟩⟩⟩
    exact hholds.extend hk.toExtends

theorem ensures_references (hd : g.outcome? d.id = some (.ok d)) (files : FileSystem) :
    (references files d).Ensures files g fun table h => h.Holds ⟨d, table⟩ := by
  -- where the references are there already, nothing is taken on
  refine .act (fun s => if (s.references? d.id).isSome then none else some d.id)
    ⟨fun s _ hnone => ?_, fun s hs _ => ?_, fun s _ _ id hid => ?_⟩ fun s hs _ => ?_
  · rw [hnone.resolve_left Bool.false_ne_true, List.contains_nil, Bool.not_false, Bool.or_true]
  · split <;> exact .refl files hs.consistent
  · split at hid
    · exact .inr ⟨hid, nofun⟩
    · next hnone =>
      rw [if_neg hnone]
      rcases List.mem_cons.mp hid with rfl | hid
      · exact .inl rfl
      · exact .inr ⟨hid, nofun⟩
  · have hknown := hs.toExtends.outcome? hd
    cases htable : s.references? d.id with
    | some table =>
      simp only [Option.isSome_some, if_true]
      refine .pure fun k hk => ⟨rfl, ?_⟩
      exact Graph.Holds.extend (g := s.graph) ⟨hknown, htable⟩ hk.toExtends
    | none =>
      simp only [Option.isSome_none, Bool.false_eq_true, if_false]
      refine .bind hs.consistent (meets_resolveAll hs.consistent files d d.value.references (some d.id))
        fun table h c hh hresolved => ?_
      obtain ⟨rfl, htargets, rfl⟩ := hresolved h (.refl files hh.consistent)
      refine meets_record (hh.toExtends.outcome? hknown) fun id hid => ?_
      obtain ⟨t, ht, htarget⟩ := List.mem_filterMap.mp hid
      exact htargets t ht id htarget

end

/-- **What loading a path comes to does not depend on what others load meanwhile.** -/
theorem ensures_load (hg₀ : g₀.Consistent) (hg : Grows files g₀ g) (p : FilePath) :
    (load files p).Ensures files g fun answer h => answer = (g₀.load files p).1 ∧ ∀ l, answer = .ok l → h.Holds l := by
  have hparsed : (ask fun g => g.loadParsed files p).Ensures files g fun answer h =>
      h.outcome? (g₀.canonical p) = some answer := by
    refine .ask (fun h hh => (Graph.asks_loadParsed files h p).grows hh.consistent) fun h k hh hk => ?_
    have hanswer := Graph.outcome?_loadParsed files h p
    rw [(hg.trans hh).toExtends.canonical] at hanswer
    exact hk.toExtends.outcome? hanswer
  refine .bind hg.consistent hparsed fun answer h hh hasked => ?_
  have hanswer := hasked h (.refl files hh.consistent)
  have hgrown := hg.trans hh
  -- in `g₀` the document is answered alike, and its references are what every graph that has them says
  have hsame : (g₀.load files p).1.map Loaded.document = answer := by
    rw [Graph.map_load, ← (Graph.settled_loadParsed hg₀ files p).same h hgrown,
      Graph.loadParsed_of_some (hgrown.toExtends.canonical p ▸ hanswer)]
  cases answer with
  | error e =>
    refine .pure fun k hk => ⟨?_, nofun⟩
    cases hload : (g₀.load files p).1 with
    | error e' =>
      rw [hload] at hsame
      cases hsame
      rfl
    | ok l =>
      rw [hload] at hsame
      cases hsame
  | ok d =>
    have hid : d.id = g₀.canonical p := hh.consistent.id_eq hanswer
    refine .bind hh.consistent (ensures_references (hid ▸ hanswer) files) fun table k hk hheld => ?_
    have hholds := hheld k (.refl files hk.consistent)
    have hall := hgrown.trans hk
    have hload : (g₀.load files p).1 = .ok ⟨d, table⟩ := by
      have hcanonical : g₀.canonical p = g₀.canonical d.id := by
        rw [hid]
        exact (FilePath.canonical_canonical hg₀.absolute p).symm
      rw [g₀.load_congr files hcanonical, ← (Graph.settled_load hg₀ files d.id).same k hall,
        hall.consistent.load_of_holds hholds]
    refine .pure fun k' hk' => ⟨hload.symm, fun l hl => ?_⟩
    cases hl
    exact hheld k' hk'

/-! ### Making views -/

theorem gives_load (hg₀ : g₀.Consistent) (hg : Grows files g₀ g) (p : FilePath) :
    (load files p).Gives files g (g₀.load files p).1 :=
  (ensures_load hg₀ hg p).mono fun _ _ h => h.1

theorem gives_loadTargets (hg₀ : g₀.Consistent) (hg : Grows files g₀ g) (present : List DocumentId)
    (edges : List Edge) :
    (loadTargets files present edges).Gives files g (View.loadTargets files present edges g₀).1 := by
  induction edges generalizing g with
  | nil => exact .pure files g []
  | cons e edges ih =>
    by_cases hpresent : e.target.document ∈ present
    · rw [loadTargets, if_pos hpresent, View.loadTargets, if_pos hpresent]
      exact ih hg
    · rw [loadTargets, if_neg hpresent, View.loadTargets_cons hpresent]
      have hload := (Graph.settled_load hg₀ files e.target.document).grows g₀ (.refl files hg₀)
      have hsame := (View.settled_loadTargets hg₀ files present edges).same _ hload
      refine .bind hg.consistent (gives_load hg₀ hg e.target.document) fun h hh => ?_
      refine .bind hh.consistent (ih (hg.trans hh)) fun k _ => ?_
      cases (g₀.load files e.target.document).1 with
      | error _ =>
        rw [View.loadMore, hsame]
        exact .pure files k _
      | ok d =>
        rw [View.loadMore, hsame]
        exact .pure files k _

theorem gives_gather (hg₀ : g₀.Consistent) {g : Graph} (hg : Grows files g₀ g) {gathered pending : List Loaded} {room : Nat}
    (hroom : View.HasRoom files g₀ room gathered pending) :
    (gather files room gathered pending).Gives files g (View.gather files room gathered pending g₀).1 := by
  cases pending with
  | nil =>
    rw [gather.eq_def, View.gather.eq_def]
    exact .pure files g gathered
  | cons d pending =>
    rw [gather.eq_def, View.gather.eq_def]
    dsimp only
    by_cases hd : d.id ∈ gathered.map Loaded.id
    · rw [if_pos hd, if_pos hd]
      exact gives_gather hg₀ hg hroom.skip
    · rw [if_neg hd, if_neg hd]
      have hfound := fun l => View.yields_of_mem_loadTargets (l := l) hg₀ (.refl files hg₀)
        (d.id :: gathered.map Loaded.id) d.references.edges
      have hgrown := (View.settled_loadTargets hg₀ files (d.id :: gathered.map Loaded.id)
        d.references.edges).grows g₀ (.refl files hg₀)
      obtain ⟨room, rfl, hleft⟩ := hroom.take hg₀ hd hfound
      dsimp only
      rw [(View.gather_eq hg₀ hgrown (.refl files hg₀) hleft hleft).1]
      exact .bind hg.consistent (gives_loadTargets hg₀ hg _ _) fun h hh => gives_gather hg₀ (hg.trans hh) hleft
termination_by (room, pending.length)

/-- **What making a view comes to does not depend on what others load meanwhile.** -/
theorem gives_view (hg₀ : g₀.Consistent) (hg : Grows files g₀ g) {root : Loaded} (hroot : g₀.Yields files root) :
    (view files root).Gives files g (View.ofLoaded files g₀ root).1 := by
  have hfound := fun l => View.yields_of_mem_loadTargets (l := l) hg₀ (.refl files hg₀) [root.id]
    root.references.edges
  have hgrown := (View.settled_loadTargets hg₀ files [root.id] root.references.edges).grows g₀ (.refl files hg₀)
  -- how much room there is depends on when it is asked for, but there is enough at any time
  have hroom : (ask fun g => (files.files.length + g.entries.length, g)).Ensures files g fun room _ =>
      View.HasRoom files g₀ room [root] (View.loadTargets files [root.id] root.references.edges g₀).1.reverse :=
    .ask (fun _ hh => .refl files hh.consistent) fun _ _ hh _ => .start (hg.trans hh) hroot hfound
  refine Ensures.bind hg.consistent hroom fun room h hh henough => ?_
  have hleft := henough h (.refl files hh.consistent)
  refine Gives.bind hh.consistent (gives_loadTargets hg₀ (hg.trans hh) _ _) fun h₁ hh₁ => ?_
  have hdone : (View.ofLoaded files g₀ root).1 = ⟨root, (View.gather files room [root]
      (View.loadTargets files [root.id] root.references.edges g₀).1.reverse g₀).1.drop 1⟩ := by
    rw [(View.gather_eq hg₀ (.refl files hg₀) hgrown hleft (.start (.refl files hg₀) hroot hfound)).1]
    rfl
  rw [hdone]
  exact .bind hh₁.consistent (gives_gather hg₀ ((hg.trans hh).trans hh₁) hleft) fun h₂ _ => .pure files h₂ _

end Work

end ApiLint
