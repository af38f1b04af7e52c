import ApiLint.Proofs.FirstOccurrences
import ApiLint.Proofs.Graph.Sessions
import ApiLint.Proofs.View.Parents

/-!
# Helper and view agree on inheritance

The properties of a model can be had in two ways.  From the viewed document they are looked up: a lineage is climbed
over the values under `allOf`, references are read as if they were written in the viewed document, and no place is come
to twice.  A walk through the view goes from node to node, and knows of each where it stands.

`View.properties_agree` says that both find the same names in the same order, if there are no circles and references
read alike in the two documents (`View.ReadsAlike`).  It takes the nodes of the view along with the values that are due
to be looked up (`View.Awaits`, `View.names_lineageOf`).  A model that was come to before is skipped, and `View.Covered`
is why nothing is missed: what it declares and inherits is declared, or will be by models that stand in front, and it is
not one of these itself.

References need not read alike, and then there is no agreement (`View.properties_differ`).
-/

namespace ApiLint

open Relation (ReflTransGen TransGen)
open ApiLint.Graph (Grows)

namespace View

variable {v : View} {n : Node} {p q : Path} {t : Location}

/-! ### What was seen -/

/-- What a model at `t` declares and inherits is declared, or will be by the models that stand in front of `ns`, all of
which lie below it. -/
def Covered (v : View) (declared : List String) (ns : List Node) (t : Location) : Prop :=
  ∃ before after, ns = before ++ after ∧
    (∀ q m, v.nodeAt? q = some m → m.source? = some t →
      m.declaredNames ⊆ declared ++ before.flatMap Node.declaredNames) ∧
    ∀ m ∈ before, ∀ u, m.source? = some u → TransGen v.Step t u

namespace Covered

variable {declared : List String} {ns : List Node} {u : Location}

/-- A model that adds nothing may be left out. -/
theorem skip (h : v.Covered declared (n :: ns) t) (hn : n.declaredNames ⊆ declared) : v.Covered declared ns t := by
  obtain ⟨before, after, heq, hnames, hbelow⟩ := h
  cases before with
  | nil => exact ⟨[], ns, rfl, hnames, by simp⟩
  | cons m before =>
    obtain ⟨rfl, rfl⟩ := List.cons.inj heq
    refine ⟨before, after, rfl, ?_, ?_⟩
    · intro q m hm hsource x hx
      have hx := hnames q m hm hsource hx
      rw [List.flatMap_cons, List.mem_append, List.mem_append] at hx
      rw [List.mem_append]
      rcases hx with hx | hx | hx
      · exact .inl hx
      · exact .inl (hn hx)
      · exact .inr hx
    · intro m hm
      exact hbelow m (List.mem_cons_of_mem n hm)

/-- A model that was come to before adds nothing. -/
theorem again (h : v.Covered declared (n :: ns) t) (hacyclic : v.Acyclic) (hn : v.nodeAt? q = some n)
    (ht : n.source? = some t) : n.declaredNames ⊆ declared := by
  obtain ⟨before, after, heq, hnames, hbelow⟩ := h
  cases before with
  | nil => simpa using hnames q n hn ht
  | cons m before =>
    obtain ⟨rfl, -⟩ := List.cons.inj heq
    exact absurd (hbelow n (List.mem_cons_self ..) t ht) (hacyclic.irrefl t)

/-- A model may be taken apart into what it declares itself and its parents. -/
theorem unfold (h : v.Covered declared (n :: ns) t) (hu : n.source? = some u)
    (hparents : ∀ m ∈ PatchBodyParameters.parents n, ∀ l, m.source? = some l → TransGen v.Step u l) :
    v.Covered (declared ++ n.ownNames) (PatchBodyParameters.parents n ++ ns) t := by
  obtain ⟨before, after, heq, hnames, hbelow⟩ := h
  cases before with
  | nil =>
    refine ⟨[], _, rfl, ?_, by simp⟩
    intro q m hm hsource x hx
    have hx := hnames q m hm hsource hx
    rw [List.flatMap_nil, List.append_nil] at hx ⊢
    exact List.mem_append_left _ hx
  | cons m before =>
    obtain ⟨rfl, rfl⟩ := List.cons.inj heq
    refine ⟨PatchBodyParameters.parents n ++ before, after, (List.append_assoc ..).symm, ?_, ?_⟩
    · intro q m hm hsource x hx
      have hx := hnames q m hm hsource hx
      rw [List.flatMap_cons, Node.declaredNames_eq] at hx
      rw [List.flatMap_append]
      simpa only [List.append_assoc] using hx
    · intro m hm l hl
      rcases List.mem_append.mp hm with hm | hm
      · exact (hbelow n (List.mem_cons_self ..) u hu).trans (hparents m hm l hl)
      · exact hbelow m (List.mem_cons_of_mem n hm) l hl

/-- A model that is taken apart is covered by its parents. -/
theorem start (hcut : v.CutsOnlyCircles) (hacyclic : v.Acyclic) (hn : v.nodeAt? q = some n)
    (hu : n.source? = some u) (declared : List String) (ns : List Node)
    (hparents : ∀ m ∈ PatchBodyParameters.parents n, ∀ l, m.source? = some l → TransGen v.Step u l) :
    v.Covered (declared ++ n.ownNames) (PatchBodyParameters.parents n ++ ns) u := by
  refine ⟨PatchBodyParameters.parents n, ns, rfl, ?_, hparents⟩
  intro q' m hm hsource x hx
  have hsame : v.SamePlace m n := ⟨⟨q', hm⟩, ⟨q, hn⟩, hsource.trans hu.symm⟩
  rw [hsame.declaredNames_eq hcut hacyclic, Node.declaredNames_eq] at hx
  rw [List.append_assoc]
  exact List.mem_append_right _ hx

end Covered

/-! ### Names in order -/

theorem isSome_lookup_iff {α : Type} {k : String} {ms : List (String × α)} :
    (List.lookup k ms).isSome ↔ k ∈ ms.map Prod.fst := by
  rw [List.lookup_isSome_iff, List.mem_map]
  exact exists_congr fun m => and_congr_right fun _ => beq_iff_eq.trans eq_comm

theorem names_declare (declared own : List (String × Value)) :
    (declare declared own).map Prod.fst
      = (own.map Prod.fst).foldl (fun there x => if x ∈ there then there else there ++ [x])
        (declared.map Prod.fst) := by
  rw [declare]
  induction own generalizing declared with
  | nil => rfl
  | cons p own ih =>
    rw [List.foldl_cons, ih, List.map_cons, List.foldl_cons]
    congr 1
    by_cases hp : p.1 ∈ declared.map Prod.fst
    · rw [if_pos (isSome_lookup_iff.mpr hp), if_pos hp]
    · rw [if_neg (mt isSome_lookup_iff.mp hp), if_neg hp, List.map_append, List.map_singleton]

/-- Of the declarations of one name the first one counts. -/
theorem names_foldl_declare (models : List Value) :
    ((models.map ownProperties).foldl declare []).map Prod.fst
      = (models.flatMap fun m => (ownProperties m).map Prod.fst).eraseDups := by
  have hfold : ∀ declared, ((models.map ownProperties).foldl declare declared).map Prod.fst
      = (models.flatMap fun m => (ownProperties m).map Prod.fst).foldl
        (fun there x => if x ∈ there then there else there ++ [x]) (declared.map Prod.fst) := by
    induction models with
    | nil => exact fun _ => rfl
    | cons m models ih =>
      intro declared
      rw [List.map_cons, List.foldl_cons, ih, names_declare, List.flatMap_cons, List.foldl_append]
  rw [hfold [], List.map_nil, foldl_unless_mem_nil]

/-! ### Looking up for a number of rounds -/

/-- `lineageOf` without an end to it before its time, given up when there is more to look up after `rounds` values. -/
def lineageWithin (files : FileSystem) (v : View) :
    Nat → Graph → List Location → List Value → Option (List Value × Graph)
  | _, g, _, [] => some ([], g)
  | 0, _, _, _ :: _ => none
  | rounds + 1, g, seen, value :: pending =>
    match v.dereference files g seen value with
    | (none, seen, g) => lineageWithin files v rounds g seen pending
    | (some model, seen, g) =>
      (lineageWithin files v rounds g seen (parents model ++ pending)).map fun r => (model :: r.1, r.2)

theorem lineageOf_of_within {files : FileSystem} {rounds : Nat} {g : Graph} {seen : List Location}
    {pending : List Value} {r : List Value × Graph} (h : lineageWithin files v rounds g seen pending = some r) :
    lineageOf files v (fun _ => false) g seen pending = r := by
  induction rounds generalizing g seen pending r with
  | zero =>
    cases pending with
    | nil =>
      rw [lineageOf]
      exact Option.some.inj h
    | cons value pending => cases h
  | succ rounds ih =>
    cases pending with
    | nil =>
      rw [lineageOf]
      exact Option.some.inj h
    | cons value pending =>
      rw [lineageWithin] at h
      rw [lineageOf]
      split at h
      · next hfound =>
        split
        · next hfound' =>
          cases hfound.symm.trans hfound'
          exact ih h
        · next hfound' => cases hfound.symm.trans hfound'
      · next hfound =>
        obtain ⟨rest, hrest, rfl⟩ := Option.map_eq_some_iff.mp h
        split
        · next hfound' => cases hfound.symm.trans hfound'
        · next hfound' =>
          cases hfound.symm.trans hfound'
          rw [if_neg Bool.false_ne_true, ih hrest]

theorem names_of_within {files : FileSystem} {v : View} {rounds : Nat} {g : Graph} {model : Value}
    {r : List Value × Graph} (h : r ∈ lineageWithin files v rounds g [] [model]) :
    (v.properties files g model).1 = (r.1.map ownProperties).foldl declare [] := by
  rw [properties, lineage, lineageOf_of_within h]

/-! ### Agreement -/

theorem forall₂_map_zipIdx {α β : Type} {R : α → β → Prop} {f : α × Nat → β} {xs : List α}
    (h : ∀ x ∈ xs.zipIdx, R x.1 (f x)) : List.Forall₂ R xs (xs.zipIdx.map f) := by
  have hall : List.Forall₂ R (xs.zipIdx.map Prod.fst) (xs.zipIdx.map f) :=
    List.forall₂_map_left_iff.mpr (List.forall₂_map_right_iff.mpr (List.forall₂_same.mpr h))
  rwa [List.zipIdx_map_fst] at hall

/-- What stands at `t` reads in the viewed document as where it is written. -/
structure ReadsAlike (files : FileSystem) (g : Graph) (v : View) (t : Location) : Prop where
  /-- A reference under `allOf` designates, read in the viewed document, what it designates in its own document. -/
  references : ∀ d ∈ v.document? t.document, ∀ model ∈ v.valueAt? t, ∀ w ∈ parents model, ∀ r ∈ w.reference?,
    (g.locate files v.root.document [] r).1.toOption = (g.locate files d.document [] r).1.toOption
  /-- A reference that designates nothing declares no properties and has no parents. -/
  dangling : ∀ model ∈ v.valueAt? t, v.edge? t = none → (model.reference?).isSome →
    ownProperties model = [] ∧ parents model = []

instance decidableReadsAlike (files : FileSystem) (g : Graph) (v : View) (t : Location) :
    Decidable (ReadsAlike files g v t) :=
  decidable_of_iff ((∀ d ∈ v.document? t.document, ∀ model ∈ v.valueAt? t, ∀ w ∈ parents model, ∀ r ∈ w.reference?,
    (g.locate files v.root.document [] r).1.toOption = (g.locate files d.document [] r).1.toOption) ∧
    ∀ model ∈ v.valueAt? t, v.edge? t = none → (model.reference?).isSome →
      ownProperties model = [] ∧ parents model = [])
    ⟨fun h => ⟨h.1, h.2⟩, fun h => ⟨h.references, h.dangling⟩⟩

/-- Looking up the value `w` is due, and the view has the node `n` for it. -/
structure Awaits (files : FileSystem) (g : Graph) (v : View) (w : Value) (n : Node) : Prop where
  stands : ∃ l, v.Stands l w n ∧ ∀ r, w.reference? = some r →
    (g.locate files v.root.document [] r).1.toOption = (v.edge? l).map Edge.target
  inline : ∀ m, n.Inherits m → IsInline m.value
  alike : ∀ m, n.Inherits m → ∀ t, m.source? = some t → ReadsAlike files g v t

section

variable {files : FileSystem} {g g' : Graph} (h : Gathers g v.documents []) (hg : g.Consistent)
  (hacyclic : v.Acyclic)
include h hg hacyclic

/-- The parents of a model that was looked up are due. -/
theorem Awaits.parents {w : Value} (hw : Awaits files g v w n) (ht : n.source? = some t) :
    List.Forall₂ (Awaits files g v) (parents n.value) (PatchBodyParameters.parents n) := by
  obtain ⟨⟨l, hstands, -⟩, hinline, halike⟩ := hw
  obtain ⟨q, hn⟩ := hstands.node
  have hvalue := (h.complete hg).onlyCircles.valueAt?_source hn ht
  obtain ⟨f, hparents, hall⟩ := stands_parents (h.complete hg) hacyclic hn ht (hinline n .self)
  rw [hparents]
  apply forall₂_map_zipIdx
  intro x hx
  obtain ⟨-, hentry⟩ := hall x hx
  have hmem : f x ∈ PatchBodyParameters.parents n := by
    rw [hparents]
    exact List.mem_map_of_mem hx
  refine ⟨⟨_, hentry, ?_⟩, fun m hm => hinline m (hm.of_parent hmem), fun m hm => halike m (hm.of_parent hmem)⟩
  -- the reference is read where it is written
  intro r hr
  obtain ⟨d, hd, hheld, -, hnode⟩ := h.exists_document hentry.value
  obtain ⟨members, heq, hlookup⟩ := Value.reference?_eq_some_iff.mp hr
  have hsite : d.document.value.IsSite (parentPlace t x.2).path r := ⟨members, heq ▸ hnode, hlookup⟩
  rw [edge?, hd, Option.bind_some, ← hg.locate_eq_edge? hheld hsite files []]
  exact (halike n .self t ht).references d hd n.value hvalue x.1 (List.fst_mem_of_mem_zipIdx hx) r hr

/-- What looking up a value that is due comes to. -/
theorem Awaits.dereference {w : Value} (hw : Awaits files g v w n) (ht : n.source? = some t)
    (hg' : Grows files g g') {seen seen' : List Location} {found : Option Value} {after : Graph}
    (hfound : v.dereference files g' seen w = (found, seen', after)) :
    Grows files g after ∧ (found = some n.value ∧ (seen' = seen ∨ seen' = t :: seen) ∨
      found = none ∧ seen' = seen ∧ (t ∈ seen ∨ (n.value.reference?).isSome)) := by
  obtain ⟨⟨l, hstands, hreads⟩, -, -⟩ := hw
  have hsettled := settled_dereference hg files v seen w
  have hgrows := hsettled.grows g' hg'
  have hsame : ((v.dereference files g' seen w).1, (v.dereference files g' seen w).2.1)
    = ((v.dereference files g seen w).1, (v.dereference files g seen w).2.1) := hsettled.same g' hg'
  have hlands := lands_dereference h hg hacyclic hstands.value hreads seen
  rw [← hsame, hfound] at hlands
  rw [hfound] at hgrows
  obtain ⟨t', ht', hjumps', hend', hvalue⟩ := hstands.follows
  cases ht.symm.trans ht'
  refine ⟨hg'.trans hgrows, ?_⟩
  cases hlands with
  | written hvalue' hend =>
    cases end_unique hjumps' hend' .refl hend
    cases hvalue.symm.trans hvalue'
    exact .inl ⟨rfl, .inl rfl⟩
  | fresh hjumps hend hvalue' =>
    cases end_unique hjumps' hend' hjumps hend
    cases hvalue.symm.trans hvalue'
    exact .inl ⟨rfl, .inr rfl⟩
  | again hjumps hend hseen =>
    cases end_unique hjumps' hend' hjumps hend
    exact .inr ⟨rfl, rfl, .inl hseen⟩
  | dangling hjumps hend hvalue' href =>
    cases end_unique hjumps' hend' hjumps hend
    cases hvalue.symm.trans hvalue'
    exact .inr ⟨rfl, rfl, .inr href⟩

omit h hg hacyclic in
theorem Awaits.exists_node {w : Value} (hw : Awaits files g v w n) :
    ∃ q t, v.nodeAt? q = some n ∧ n.source? = some t := by
  obtain ⟨⟨l, hstands, -⟩, -, -⟩ := hw
  obtain ⟨q, hn⟩ := hstands.node
  obtain ⟨t, ht, -⟩ := hstands.follows
  exact ⟨q, t, hn, ht⟩

theorem Awaits.declaredNames_of_dangling {w : Value} (hw : Awaits files g v w n) (ht : n.source? = some t)
    (href : (n.value.reference?).isSome) : n.declaredNames = [] := by
  obtain ⟨l, hstands, -⟩ := hw.stands
  obtain ⟨t', ht', -, hend, hvalue⟩ := hstands.follows
  cases ht.symm.trans ht'
  obtain ⟨hown, hnone⟩ := (hw.alike n .self t ht).dangling n.value hvalue hend href
  have hparents := hw.parents h hg hacyclic ht
  rw [hnone] at hparents
  cases hall : PatchBodyParameters.parents n with
  | nil => rw [Node.declaredNames_eq, Node.ownNames_eq (hw.inline n .self), hown, hall]; rfl
  | cons p ps =>
    rw [hall] at hparents
    cases hparents

/-- **A lineage declares what the walk through the view finds.** -/
theorem names_lineageOf {declared : List String} {seen : List Location} {pending : List Value} {ns : List Node}
    (hg' : Grows files g g') (hpending : List.Forall₂ (Awaits files g v) pending ns)
    (hseen : ∀ t ∈ seen, v.Covered declared ns t) :
    (declared ++ (lineageOf files v (fun _ => false) g' seen pending).1.flatMap fun m =>
        (ownProperties m).map Prod.fst).eraseDups
      = (declared ++ ns.flatMap Node.declaredNames).eraseDups := by
  fun_induction lineageOf files v (fun _ => false) g' seen pending generalizing ns declared with
  | case1 g' seen =>
    cases hpending
    rfl
  | case2 g' seen w pending seen' after hfound ih =>
    cases hpending with
    | @cons _ n _ ns hw hpending =>
      obtain ⟨q, t, hn, ht⟩ := hw.exists_node
      obtain ⟨hafter, hresult⟩ := hw.dereference h hg hacyclic ht hg' hfound
      obtain ⟨hfound, -⟩ | ⟨-, rfl, hnothing⟩ := hresult
      · cases hfound
      have hsubset : n.declaredNames ⊆ declared := by
        rcases hnothing with hagain | hdangling
        · exact (hseen t hagain).again hacyclic hn ht
        · rw [hw.declaredNames_of_dangling h hg hacyclic ht hdangling]
          exact List.nil_subset _
      rw [List.flatMap_cons, eraseDups_append_of_subset hsubset]
      exact ih hafter hpending fun u hu => (hseen u hu).skip hsubset
  | case3 g' seen w pending model seen' after hfound hstop => exact absurd hstop Bool.false_ne_true
  | case4 g' seen w pending model seen' after hfound hstop models final hrest ih =>
    cases hpending with
    | @cons _ n _ ns hw hpending =>
      obtain ⟨q, t, hn, ht⟩ := hw.exists_node
      obtain ⟨hafter, hresult⟩ := hw.dereference h hg hacyclic ht hg' hfound
      obtain ⟨hfound, hseen'⟩ | ⟨hfound, -⟩ := hresult
      · cases hfound
        have hbelow : ∀ m ∈ PatchBodyParameters.parents n, ∀ l, m.source? = some l → TransGen v.Step t l :=
          fun m hm l hl => steps_of_mem_parents (h.complete hg) hacyclic hn ht (hw.inline n .self) hm hl
        have hcovered : ∀ u ∈ seen', v.Covered (declared ++ n.ownNames) (PatchBodyParameters.parents n ++ ns) u := by
          intro u hu
          rcases hseen' with rfl | rfl
          · exact (hseen u hu).unfold ht hbelow
          · rcases List.mem_cons.mp hu with rfl | hu
            · exact .start (h.complete hg).onlyCircles hacyclic hn ht declared ns hbelow
            · exact (hseen u hu).unfold ht hbelow
        have hnames := ih hafter (List.rel_append (hw.parents h hg hacyclic ht) hpending) hcovered
        rw [hrest] at hnames
        rw [List.flatMap_cons, List.flatMap_cons, ← Node.ownNames_eq (hw.inline n .self), Node.declaredNames_eq n]
        simpa only [List.flatMap_append, List.append_assoc] using hnames
      · cases hfound

end

/-- **The names that are looked up for a model are those that the walk through the view finds.** -/
theorem properties_agree {base : FilePath} (hbase : base.isAbsolute = true) {s : Session} (hs : s.From base)
    {id : DocumentId} {g g' : Graph} (h : ofDocument s.files s.graph id = (.ok v, g)) (hg' : Grows s.files g g')
    (hacyclic : v.Acyclic) {model : Value} (hmodel : v.root.document.valueAt? p = some model)
    (hn : v.nodeAt? q = some n) (hfollows : v.Follows ⟨v.root.id, p⟩ n)
    (hinline : ∀ m, n.Inherits m → IsInline m.value)
    (halike : ∀ m, n.Inherits m → ∀ t, m.source? = some t → ReadsAlike s.files g v t) :
    (v.properties s.files g' model).1.map Prod.fst = n.declaredNames.eraseDups := by
  obtain ⟨hg, hgathers⟩ := gathers_ofDocument (hs.consistent hbase) h
  have hcomplete := hgathers.complete hg
  have hvalue : v.valueAt? ⟨v.root.id, p⟩ = some model := by
    rw [valueAt?, hcomplete.root, Option.bind_some]
    exact hmodel
  have hreads : ∀ r, model.reference? = some r →
      (g.locate s.files v.root.document [] r).1.toOption = (v.edge? ⟨v.root.id, p⟩).map Edge.target := by
    intro r hr
    obtain ⟨members, rfl, hlookup⟩ := Value.reference?_eq_some_iff.mp hr
    rw [edge?, hcomplete.root, Option.bind_some]
    exact hg.locate_eq_edge? (hgathers.held _ (List.mem_append_left _ (List.mem_cons_self ..)))
      ⟨members, hmodel, hlookup⟩ s.files []
  have hawaits : Awaits s.files g v model n := ⟨⟨_, ⟨hvalue, ⟨q, hn⟩, hfollows⟩, hreads⟩, hinline, halike⟩
  have hunseen : ∀ t ∈ ([] : List Location), v.Covered [] [n] t := fun t ht => absurd ht List.not_mem_nil
  have hnames := names_lineageOf hgathers hg hacyclic hg' (.cons hawaits .nil) hunseen
  rw [List.nil_append, List.nil_append, List.flatMap_singleton] at hnames
  rw [← hnames]
  exact names_foldl_declare _

/-- A model of the viewed document inherits from one of another document, and that one from a further one. -/
theorem properties_agree_of_two_documents : ∃ s : Session, ∃ v g g' model n,
    (⟨"/"⟩ : FilePath).isAbsolute = true ∧ s.From ⟨"/"⟩ ∧ ofDocument s.files s.graph ⟨"a"⟩ = (.ok v, g) ∧
      Grows s.files g g' ∧ v.Acyclic ∧ v.root.document.valueAt? [.key "A"] = some model ∧
      v.nodeAt? [.key "A"] = some n ∧ v.Follows ⟨v.root.id, [.key "A"]⟩ n ∧
      (∀ m, n.Inherits m → IsInline m.value) ∧
      (∀ m, n.Inherits m → ∀ t, m.source? = some t → ReadsAlike s.files g v t) ∧
      n.declaredNames = ["y", "x", "y"] ∧
      (v.properties s.files g' model).1.map Prod.fst = n.declaredNames.eraseDups := by
  let files : FileSystem := ⟨[
    (⟨"/a"⟩, "\x7b\"A\":\x7b\"allOf\":[\x7b\"$ref\":\"b#/B\"\x7d],\"properties\":\x7b\"y\":1\x7d\x7d\x7d"),
    (⟨"/b"⟩,
      "\x7b\"B\":\x7b\"allOf\":[\x7b\"$ref\":\"b#/C\"\x7d]\x7d," ++
        "\"C\":\x7b\"properties\":\x7b\"x\":1,\"y\":1\x7d\x7d\x7d")],
    fun _ => "no such file"⟩
  let b : Location := ⟨⟨"/b"⟩, [.key "B"]⟩
  let c : Location := ⟨⟨"/b"⟩, [.key "C"]⟩
  have hbase : (⟨"/"⟩ : FilePath).isAbsolute = true := by decide +kernel
  have hfrom : (⟨files, .empty ⟨"/"⟩⟩ : Session).From ⟨"/"⟩ := ⟨files, [], rfl⟩
  have hfacts : ∃ root ∈ (Graph.load files (.empty ⟨"/"⟩) ⟨"a"⟩).1.toOption,
      let found := loadTargets files [root.id] root.references.edges (Graph.load files (.empty ⟨"/"⟩) ⟨"a"⟩).2
      found.1.length = 1 ∧ ∃ other ∈ found.1.head?, ∃ model ∈ root.document.valueAt? [.key "A"],
        other.id ≠ root.id ∧ (∀ e ∈ other.references.edges, e.target.document = other.id) ∧
        (∀ d ∈ [root, other], ∀ e ∈ d.references.edges,
          outside [⟨⟨"/b"⟩, []⟩, c] e.target < outside [⟨⟨"/b"⟩, []⟩, c] ⟨d.id, e.origin⟩) ∧
        (∀ i < 1, (View.mk root [other]).edge? ⟨root.id, [Segment.key "A"].take i⟩ = none) ∧
        (View.mk root [other]).IsLine ⟨root.id, [.key "A"]⟩ [b, c] ∧
        [⟨root.id, [.key "A"]⟩, b, c].flatMap (View.mk root [other]).namesAt = ["y", "x", "y"] ∧
        ∀ t ∈ [⟨root.id, [.key "A"]⟩, b, c], ReadsAlike files found.2 ⟨root, [other]⟩ t := by
    decide +kernel
  obtain ⟨root, hroot, hone, other, hother, model, hmodel, hne, hown, hmarks, habove, hline, hnames, halike⟩ :=
    hfacts
  obtain ⟨hview, hg, hgathers, hacyclic⟩ :=
    ofDocument_pair_acyclic hbase _ hroot hone hother (List.cons_ne_nil _ _) hne hown hmarks
  generalize (loadTargets files [root.id] root.references.edges
    (Graph.load files (.empty ⟨"/"⟩) ⟨"a"⟩).2).2 = g at hview hg hgathers halike
  obtain ⟨n, hn, hfollows, hdeclared, hinherits⟩ := hline.exists_node (hgathers.complete hg) hacyclic hmodel habove
  have hinline : ∀ m, n.Inherits m → IsInline m.value := fun m hm => (hinherits m hm).1
  have halike : ∀ m, n.Inherits m → ∀ t, m.source? = some t → ReadsAlike files g ⟨root, [other]⟩ t := by
    intro m hm t ht
    obtain ⟨-, u, hu, hplace, -⟩ := hinherits m hm
    obtain rfl := Option.some.inj (ht.symm.trans hplace)
    exact halike t hu
  have hgrows := (hg.loading files ⟨"c"⟩).toGrows
  exact ⟨_, _, _, _, model, n, hbase, hfrom, hview, hgrows, hacyclic, hmodel, hn, hfollows, hinline, halike,
    hdeclared.trans hnames, properties_agree hbase hfrom hview hgrows hacyclic hmodel hn hfollows hinline halike⟩

/-- Two documents with references that do not read alike.  `#/C` stands in another document, where it designates a
model, and read in the viewed document it designates nothing; and a reference that designates nothing has properties
beside it. -/
def unlikeFiles : FileSystem where
  files := [
    (⟨"/a"⟩,
      "\x7b\"A\":\x7b\"allOf\":[\x7b\"$ref\":\"b#/B\"\x7d]\x7d," ++
        "\"D\":\x7b\"$ref\":\"#/n\",\"properties\":\x7b\"x\":1\x7d\x7d\x7d"),
    (⟨"/b"⟩,
      "\x7b\"B\":\x7b\"allOf\":[\x7b\"$ref\":\"#/C\"\x7d]\x7d," ++
        "\"C\":\x7b\"properties\":\x7b\"x\":1\x7d\x7d\x7d")]
  absent := fun _ => "no such file"

/-- Without reading alike there is no agreement: the walk through the view finds the property `x`, and nothing is
looked up. -/
theorem properties_differ : ∃ v g, ofDocument unlikeFiles (.empty ⟨"/"⟩) ⟨"a"⟩ = (.ok v, g) ∧ v.Acyclic ∧
    ∀ name ∈ ["A", "D"], ∃ model n, v.root.document.valueAt? [.key name] = some model ∧
      v.nodeAt? [.key name] = some n ∧ v.Follows ⟨v.root.id, [.key name]⟩ n ∧
      (∀ m, n.Inherits m → IsInline m.value) ∧ n.declaredNames.eraseDups = ["x"] ∧
      (v.properties unlikeFiles g model).1.map Prod.fst = [] := by
  let b : Location := ⟨⟨"/b"⟩, [.key "B"]⟩
  let c : Location := ⟨⟨"/b"⟩, [.key "C"]⟩
  have hbase : (⟨"/"⟩ : FilePath).isAbsolute = true := by decide +kernel
  have hfacts : ∃ root ∈ (Graph.load unlikeFiles (.empty ⟨"/"⟩) ⟨"a"⟩).1.toOption,
      let found := loadTargets unlikeFiles [root.id] root.references.edges
        (Graph.load unlikeFiles (.empty ⟨"/"⟩) ⟨"a"⟩).2
      found.1.length = 1 ∧ ∃ other ∈ found.1.head?,
        other.id ≠ root.id ∧ (∀ e ∈ other.references.edges, e.target.document = other.id) ∧
        (∀ d ∈ [root, other], ∀ e ∈ d.references.edges,
          outside [⟨⟨"/b"⟩, []⟩, c] e.target < outside [⟨⟨"/b"⟩, []⟩, c] ⟨d.id, e.origin⟩) ∧
        ∀ x ∈ [("A", [b, c]), ("D", [])], ∃ model ∈ root.document.valueAt? [.key x.1],
          (∀ i < 1, (View.mk root [other]).edge? ⟨root.id, [Segment.key x.1].take i⟩ = none) ∧
          (View.mk root [other]).IsLine ⟨root.id, [.key x.1]⟩ x.2 ∧
          ((⟨root.id, [.key x.1]⟩ :: x.2).flatMap (View.mk root [other]).namesAt).eraseDups = ["x"] ∧
          ∃ r ∈ lineageWithin unlikeFiles ⟨root, [other]⟩ 4 found.2 [] [model],
            ((r.1.map ownProperties).foldl declare []).map Prod.fst = [] := by
    decide +kernel
  obtain ⟨root, hroot, hone, other, hother, hne, hown, hmarks, hmodels⟩ := hfacts
  obtain ⟨hview, hg, hgathers, hacyclic⟩ :=
    ofDocument_pair_acyclic hbase _ hroot hone hother (List.cons_ne_nil _ _) hne hown hmarks
  refine ⟨_, _, hview, hacyclic, fun name hname => ?_⟩
  obtain ⟨x, hx, rfl⟩ : ∃ x ∈ [("A", [b, c]), ("D", [])], x.1 = name := List.mem_map.mp hname
  obtain ⟨model, hmodel, habove, hline, hnames, r, hr, hlookedUp⟩ := hmodels x hx
  obtain ⟨n, hn, hfollows, hdeclared, hinherits⟩ := hline.exists_node (hgathers.complete hg) hacyclic hmodel habove
  refine ⟨model, n, hmodel, hn, hfollows, fun m hm => (hinherits m hm).1, ?_, ?_⟩
  · rw [hdeclared]
    exact hnames
  · rw [names_of_within hr]
    exact hlookedUp

end View

end ApiLint
