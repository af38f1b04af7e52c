import ApiLint.Proofs.Graph.Answers
import ApiLint.Proofs.Graph.ReferenceSites
import ApiLint.Proofs.View.Places
import Mathlib.Logic.Relation

/-!
# Only circles are cut

A node of a view may be a reference object that is not followed.  `View.Step` is a step from one place to
another, down a document or over an edge, and `View.CutsOnlyCircles` says that the edge at such a node leads
back to it by such steps.  So where no edge leads back, every reference is followed to the end of its chain.

A reference is not followed when its target encloses a place where a reference was crossed before.  All the
places crossed lead to the place at hand (`Walk.leads`), and a target leads to what it encloses.  That there is
no other reason not to follow a reference rests on `View.Complete`: the target of every edge is in the view.

That there are no circles can be told from marks, if every edge leads into more of them (`View.acyclic_of_marks`).
-/

namespace ApiLint

open Relation (ReflTransGen)

namespace View

/-- A step down from a node, or over the edge that starts at it. -/
inductive Step (v : View) : Location → Location → Prop
  | down {l : Location} {s : Segment} : (v.valueAt? ⟨l.document, l.path.child s⟩).isSome →
    Step v l ⟨l.document, l.path.child s⟩
  | jump {l : Location} {e : Edge} : v.edge? l = some e → Step v l e.target

def Jump (v : View) (l t : Location) : Prop :=
  ∃ e, v.edge? l = some e ∧ e.target = t

def Acyclic (v : View) : Prop :=
  ∀ l e, v.edge? l = some e → ¬ ReflTransGen v.Step e.target l

def Follows (v : View) (l : Location) (n : Node) : Prop :=
  ∃ t, n.source? = some t ∧ ReflTransGen v.Jump l t ∧ v.edge? t = none ∧ v.valueAt? t = some n.value

/-- A reference that is not followed is part of a circle. -/
structure CutsOnlyCircles (v : View) : Prop where
  /-- Every node of the view is a node of a document. -/
  placed : ∀ p n, v.nodeAt? p = some n → ∃ l, n.source? = some l ∧ v.valueAt? l = some n.value
  /-- An edge that starts at a node of the view leads back to it. -/
  circles : ∀ p n l e, v.nodeAt? p = some n → n.source? = some l → v.edge? l = some e →
    ReflTransGen v.Step e.target l
  /-- Without circles, no edge starts at a node of the view. -/
  settled : v.Acyclic → ∀ p n l, v.nodeAt? p = some n → n.source? = some l → v.edge? l = none
  /-- Without circles, the root of the view is where the chain from the root of its document ends. -/
  root : v.Acyclic → v.Follows ⟨v.root.id, []⟩ v.node
  /-- Without circles, a child of a node is where the chain from the place of the child ends. -/
  children : v.Acyclic → ∀ p n l s c, v.nodeAt? p = some n → n.source? = some l → (s, c) ∈ n.children →
    v.Follows ⟨l.document, l.path.child s⟩ c

theorem Acyclic.edge?_eq_none {v : View} (h : v.Acyclic) {l : Location}
    (hback : ∀ e, v.edge? l = some e → ReflTransGen v.Step e.target l) : v.edge? l = none := by
  cases he : v.edge? l with
  | none => rfl
  | some e => exact absurd (hback e he) (h l e he)

/-! ### Complete views -/

/-- Edges start at reference objects and lead to nodes of the view. -/
structure Complete (v : View) : Prop where
  distinct : ∀ d ∈ v.documents, d.document.value.HasDistinctNames
  root : v.document? v.root.id = some v.root
  origin : ∀ l e, v.edge? l = some e → ∃ w, v.valueAt? l = some w ∧ (w.reference?).isSome
  target : ∀ l e, v.edge? l = some e → (v.valueAt? e.target).isSome

variable {v : View} {g : Graph}

theorem Gathers.document?_eq (h : Gathers g v.documents []) {d : Loaded} (hd : d ∈ v.documents) :
    v.document? d.id = some d :=
  find?_key h.nodup hd

/-- **A view that is made of a graph is complete.** -/
theorem Gathers.complete (h : Gathers g v.documents []) (hg : g.Consistent) : v.Complete := by
  have hheld : ∀ d ∈ v.documents, g.Holds d := fun d hd => h.held d (List.mem_append_left _ hd)
  have hedge : ∀ {l : Location} {e : Edge}, v.edge? l = some e →
      ∃ d ∈ v.documents, v.document? l.document = some d ∧ d.references.edge? l.path = some e := by
    intro l e he
    obtain ⟨d, hd, he⟩ := Option.bind_eq_some_iff.mp he
    exact ⟨d, List.mem_of_find?_eq_some hd, hd, he⟩
  refine ⟨fun d hd => hg.hasDistinctNames (hheld d hd), h.document?_eq (List.mem_cons_self ..),
    fun l e he => ?_, fun l e he => ?_⟩
  · obtain ⟨d, hd, hdocument, he⟩ := hedge he
    have hmem := ReferenceTable.mem_of_edge? he
    have horigin : e.origin = l.path := key_of_find? he
    obtain ⟨htable, -⟩ := hg.partitions (hheld d hd)
    obtain ⟨members, hnode, href⟩ := (htable.sites e.origin e.reference).mp
      (List.mem_append_left _ (List.mem_map.mpr ⟨e, hmem, rfl⟩))
    refine ⟨.object members, ?_, ?_⟩
    · rw [valueAt?, hdocument, Option.bind_some, Document.valueAt?, ← horigin, hnode]
    · rw [Value.reference?_eq_some_iff.mpr ⟨members, rfl, href⟩]
      rfl
  · obtain ⟨d, hd, -, he⟩ := hedge he
    have hmem := ReferenceTable.mem_of_edge? he
    obtain ⟨t, ht, hnode⟩ := hg.target (hheld d hd) hmem
    rcases h.closed d hd e hmem with htarget | htarget
    · obtain ⟨d', hd', hid⟩ := List.mem_map.mp htarget
      have hsame : d'.document = t := by
        have hheld' := (hheld d' hd').document
        rw [hid, ht] at hheld'
        cases hheld'
        rfl
      rw [valueAt?, ← hid, h.document?_eq hd', Option.bind_some, hsame]
      exact hnode
    · exact absurd htarget List.not_mem_nil

/-! ### Walks through a complete view -/

/-- What encloses a node leads down to it. -/
theorem leads_of_encloses {t l : Location} (h : t.encloses l = true) (hl : (v.valueAt? l).isSome) :
    ReflTransGen v.Step t l := by
  obtain ⟨document, path⟩ := t
  obtain ⟨document', path'⟩ := l
  rw [Location.encloses, Bool.and_eq_true] at h
  obtain rfl : document = document' := of_decide_eq_true h.1
  obtain ⟨q, rfl⟩ := Path.startsWith_iff.mp h.2
  clear h
  induction q using List.reverseRecOn with
  | nil => rw [List.append_nil]
  | append_singleton q s ih =>
    rw [← List.append_assoc] at hl ⊢
    refine (ih ?_).tail (.down hl)
    -- what lies above a node is a node
    obtain ⟨w, hw⟩ := Option.isSome_iff_exists.mp hl
    obtain ⟨d, hd, hnode⟩ := Option.bind_eq_some_iff.mp hw
    rw [Document.valueAt?, Value.get?_append] at hnode
    obtain ⟨u, hu, -⟩ := Option.bind_eq_some_iff.mp hnode
    exact Option.isSome_iff_exists.mpr ⟨u, Option.bind_eq_some_iff.mpr ⟨d, hd, hu⟩⟩

theorem jump_of_landing? {place t : Location} {crossed : List Location} {value w : Value}
    (h : v.landing? place crossed value = some (t, w)) : v.Jump place t := by
  rw [landing?] at h
  split at h
  · next r e _ he =>
    split at h
    · cases h
    · obtain ⟨u, -, heq⟩ := Option.map_eq_some_iff.mp h
      exact ⟨e, he, (Prod.mk.inj heq).1⟩
  · cases h

namespace Walk

variable {targets : List Location} {path : Path} {place : Location} {crossed : List Location} {value : Value}

/-- **Every place where a reference was crossed leads to the place at hand.** -/
theorem leads (h : v.Walk targets path place crossed value) (hv : v.Complete) :
    ∀ l ∈ place :: crossed, (v.valueAt? l).isSome ∧ ReflTransGen v.Step l place := by
  have hnode := Option.isSome_iff_exists.mpr ⟨value, h.valueAt?_place hv.distinct⟩
  induction h with
  | root =>
    intro l hl
    obtain rfl := List.mem_singleton.mp hl
    exact ⟨hnode, .refl⟩
  | @cross targets path place t crossed value w h hland ih =>
    have hbefore := ih (Option.isSome_iff_exists.mpr ⟨value, h.valueAt?_place hv.distinct⟩)
    obtain ⟨e, he, rfl⟩ := jump_of_landing? hland
    intro l hl
    rcases List.mem_cons.mp hl with rfl | hl
    · exact ⟨hnode, .refl⟩
    · obtain ⟨hlnode, hleads⟩ := hbefore l hl
      exact ⟨hlnode, hleads.tail (.jump he)⟩
  | @down targets path place crossed value w s h hstay hc ih =>
    have hbefore := ih (Option.isSome_iff_exists.mpr ⟨value, h.valueAt?_place hv.distinct⟩)
    intro l hl
    rcases List.mem_cons.mp hl with rfl | hl
    · exact ⟨hnode, .refl⟩
    · obtain ⟨hlnode, hleads⟩ := hbefore l (List.mem_cons_of_mem place hl)
      exact ⟨hlnode, hleads.tail (.down hnode)⟩

/-- An edge that is not followed leads back to where it starts. -/
theorem leads_back (h : v.Walk targets path place crossed value) (hv : v.Complete)
    (hstay : v.landing? place crossed value = none) {e : Edge} (he : v.edge? place = some e) :
    ReflTransGen v.Step e.target place := by
  have hvalue := h.valueAt?_place hv.distinct
  obtain ⟨w, hw, href⟩ := hv.origin place e he
  obtain rfl : value = w := Option.some.inj (hvalue.symm.trans hw)
  obtain ⟨r, hr⟩ := Option.isSome_iff_exists.mp href
  rw [landing?, hr, he] at hstay
  dsimp only at hstay
  split at hstay
  · next hany =>
    obtain ⟨l, hl, hencloses⟩ := List.any_eq_true.mp hany
    obtain ⟨hnode, hleads⟩ := h.leads hv l hl
    exact (leads_of_encloses hencloses hnode).trans hleads
  · have htarget := hv.target place e he
    rw [Option.map_eq_none_iff.mp hstay] at htarget
    cases htarget

/-- Entering a place follows the chain that starts there. -/
theorem jumps_enter (h : v.Walk targets path place crossed value) (hv : v.Complete) :
    ∃ l, (Node.enter v place crossed value).source? = some l ∧ ReflTransGen v.Jump place l ∧
      v.valueAt? l = some (Node.enter v place crossed value).value := by
  fun_induction Node.enter v place crossed value generalizing targets with
  | case1 place crossed value hstay => exact ⟨place, rfl, .refl, h.valueAt?_place hv.distinct⟩
  | case2 place crossed value t w hland ih =>
    obtain ⟨l, hsource, hjumps, hvalue⟩ := ih (h.cross hland)
    exact ⟨l, hsource, .head (jump_of_landing? hland) hjumps, hvalue⟩

theorem follows_enter (h : v.Walk targets path place crossed value) (hv : v.Complete) (hacyclic : v.Acyclic) :
    v.Follows place (Node.enter v place crossed value) := by
  obtain ⟨l, hsource, hjumps, hvalue⟩ := h.jumps_enter hv
  obtain ⟨targets', place', crossed', value', hwalk, hstay, heq⟩ := h.reaches_enter
  obtain rfl : place' = l := by
    rw [heq] at hsource
    exact Option.some.inj hsource
  have hend := hacyclic.edge?_eq_none fun e he => hwalk.leads_back hv hstay he
  exact ⟨place', hsource, hjumps, hend, hvalue⟩

end Walk

/-- **Only circles are cut.** -/
theorem Complete.onlyCircles (hv : v.Complete) : v.CutsOnlyCircles := by
  have hcircles : ∀ p n l e, v.nodeAt? p = some n → n.source? = some l → v.edge? l = some e →
      ReflTransGen v.Step e.target l := by
    intro p n l e hn hl he
    obtain ⟨targets, place, crossed, value, hwalk, hstay, rfl⟩ := reaches_of_nodeAt? hn
    obtain rfl : place = l := Option.some.inj hl
    exact hwalk.leads_back hv hstay he
  refine ⟨fun p n hn => ?_, hcircles,
    fun hacyclic p n l hn hl => hacyclic.edge?_eq_none fun e => hcircles p n l e hn hl,
    fun hacyclic => Walk.root.follows_enter hv hacyclic, fun hacyclic p n l s c hn hl hc => ?_⟩
  · obtain ⟨targets, place, crossed, value, hwalk, -, rfl⟩ := reaches_of_nodeAt? hn
    exact ⟨place, rfl, hwalk.valueAt?_place hv.distinct⟩
  · obtain ⟨targets, place, crossed, value, hwalk, hstay, rfl⟩ := reaches_of_nodeAt? hn
    obtain rfl : place = l := Option.some.inj hl
    obtain ⟨⟨t, w⟩, hw, heq⟩ := List.mem_map.mp hc
    obtain ⟨rfl, rfl⟩ := Prod.mk.inj heq
    exact (hwalk.down hstay hw).follows_enter hv hacyclic

/-- **A reference that a view does not follow is part of a circle.** -/
theorem cutsOnlyCircles {base : FilePath} (hbase : base.isAbsolute = true) {s : Session} (hs : s.From base)
    {id : DocumentId} {v : View} {g : Graph} (h : ofDocument s.files s.graph id = (.ok v, g)) :
    v.CutsOnlyCircles := by
  obtain ⟨hg, hgathers⟩ := gathers_ofDocument (hs.consistent hbase) h
  exact (hgathers.complete hg).onlyCircles

/-- Where references lead to values without children, there are no circles. -/
theorem acyclic_of_leaves (h : ∀ e ∈ v.edges, v.edge? e.target = none ∧
    ∀ w, v.valueAt? e.target = some w → w.children = []) : v.Acyclic := by
  intro l e he hback
  obtain ⟨hend, hleaf⟩ := h e (mem_edges_of_edge? he)
  rcases hback.cases_head with heq | ⟨t, hstep, -⟩
  · rw [heq, he] at hend
    cases hend
  · cases hstep with
    | @down s hnode =>
      obtain ⟨c, hc⟩ := Option.isSome_iff_exists.mp hnode
      obtain ⟨d, hd, hget⟩ := Option.bind_eq_some_iff.mp hc
      rw [Document.valueAt?, Path.child, Value.get?_append] at hget
      obtain ⟨w, hw, hchild⟩ := Option.bind_eq_some_iff.mp hget
      obtain ⟨c', hc', -⟩ := Option.bind_eq_some_iff.mp hchild
      have hmem := Value.mem_children_of_child? hc'
      rw [hleaf w (Option.bind_eq_some_iff.mpr ⟨d, hd, hw⟩)] at hmem
      exact absurd hmem List.not_mem_nil
    | jump he' =>
      rw [hend] at he'
      cases he'

/-- The circle of a reference to the root of its document is cut, and where the only reference leads to a number
there is no circle, and the number is followed to. -/
theorem cutsOnlyCircles_of_two_views :
    (∃ s : Session, ∃ v g n e, (⟨"/"⟩ : FilePath).isAbsolute = true ∧ s.From ⟨"/"⟩ ∧
      ofDocument s.files s.graph ⟨"a.json"⟩ = (.ok v, g) ∧ v.nodeAt? [.key "x"] = some n ∧
      n.source? = some ⟨⟨"/a.json"⟩, [.key "x"]⟩ ∧ v.edge? ⟨⟨"/a.json"⟩, [.key "x"]⟩ = some e ∧
      ReflTransGen v.Step e.target ⟨⟨"/a.json"⟩, [.key "x"]⟩) ∧
    ∃ s : Session, ∃ v g n, s.From ⟨"/"⟩ ∧ ofDocument s.files s.graph ⟨"b.json"⟩ = (.ok v, g) ∧ v.Acyclic ∧
      v.edges.map Edge.origin = [[.key "x"]] ∧ (.key "x", n) ∈ v.node.children ∧
      n.source? = some ⟨⟨"/b.json"⟩, [.key "y"]⟩ ∧
      v.Follows ⟨v.root.id, []⟩ v.node ∧ v.Follows ⟨⟨"/b.json"⟩, [.key "x"]⟩ n := by
  let files : FileSystem := ⟨[(⟨"/a.json"⟩, "\x7b\"x\":\x7b\"$ref\":\"#\"\x7d\x7d"),
    (⟨"/b.json"⟩, "\x7b\"x\":\x7b\"$ref\":\"#/y\"\x7d,\"y\":1\x7d")], fun _ => "no such file"⟩
  have hbase : (⟨"/"⟩ : FilePath).isAbsolute = true := by decide +kernel
  have hfrom : (⟨files, .empty ⟨"/"⟩⟩ : Session).From ⟨"/"⟩ := ⟨files, [], rfl⟩
  constructor
  · have hroot : ((Graph.load files (.empty ⟨"/"⟩) ⟨"a.json"⟩).1.toOption.map fun root =>
        (root.id, root.references.edges,
          (landing? ⟨root, []⟩ ⟨root.id, []⟩ [] root.document.value).isNone,
          (root.document.value.child? (.key "x")).map fun w =>
            (landing? ⟨root, []⟩ ⟨root.id, [.key "x"]⟩ [] w).isNone))
        = some (⟨"/a.json"⟩, [⟨[.key "x"], "#", ⟨⟨"/a.json"⟩, []⟩⟩], true, some true) := by
      decide +kernel
    cases hload : Graph.load files (.empty ⟨"/"⟩) ⟨"a.json"⟩ with
    | mk answer g =>
      rw [hload] at hroot
      cases answer with
      | error e => cases hroot
      | ok root =>
        simp only [Except.toOption, Option.map_some, Option.some.injEq, Prod.mk.injEq,
          Option.isNone_iff_eq_none, Option.map_eq_some_iff] at hroot
        obtain ⟨hid, hedges, hstay, w, hw, hstay'⟩ := hroot
        have hview := ofDocument_of_own hload fun e he => by
          rw [hedges] at he
          rw [List.mem_singleton.mp he, hid]
        have hnode : (View.mk root []).nodeAt? [.key "x"]
            = some ⟨w, some ⟨⟨root, []⟩, ⟨root.id, [.key "x"]⟩, []⟩⟩ := by
          rw [nodeAt?, node, Node.enter_of_stay hstay, Node.at?, Node.child?]
          simp only [hw, Option.map_some, Option.bind_some, Node.at?]
          exact congrArg some (Node.enter_of_stay hstay')
        have hedge : (View.mk root []).edge? ⟨⟨"/a.json"⟩, [.key "x"]⟩
            = some ⟨[.key "x"], "#", ⟨⟨"/a.json"⟩, []⟩⟩ := by
          have hdocument : (View.mk root []).document? ⟨"/a.json"⟩ = some root :=
            List.find?_cons_of_pos (decide_eq_true hid)
          rw [edge?, hdocument, Option.bind_some, ReferenceTable.edge?, hedges]
          decide
        have hsource := congrArg (fun id => some (Location.mk id [.key "x"])) hid
        exact ⟨_, _, g, _, _, hbase, hfrom, hview, hnode, hsource, hedge,
          (cutsOnlyCircles hbase hfrom hview).circles _ _ _ _ hnode hsource hedge⟩
  · have hfacts : ∃ root ∈ (Graph.load files (.empty ⟨"/"⟩) ⟨"b.json"⟩).1.toOption,
        (∀ e ∈ root.references.edges, e.target.document = root.id) ∧
        (View.mk root []).edges.map Edge.origin = [[.key "x"]] ∧
        (∀ e ∈ (View.mk root []).edges, ((View.mk root []).edge? e.target).isNone ∧
          ∀ w ∈ (View.mk root []).valueAt? e.target, w.children.isEmpty) ∧
        (View.mk root []).node.source? = some ⟨⟨"/b.json"⟩, []⟩ ∧
        ∃ n ∈ (View.mk root []).node.child? (.key "x"), n.source? = some ⟨⟨"/b.json"⟩, [.key "y"]⟩ := by
      decide +kernel
    obtain ⟨root, hroot, hown, horigin, hleaves, hsource, n, hn, hplace⟩ := hfacts
    have hview := ofDocument_of_own (Graph.load_eq_of_mem_toOption hroot) hown
    have hacyclic : (View.mk root []).Acyclic := acyclic_of_leaves fun e he =>
      ⟨Option.isNone_iff_eq_none.mp (hleaves e he).1, fun w hw => List.isEmpty_iff.mp ((hleaves e he).2 w hw)⟩
    have hmem := Node.mem_children_of_child? hn
    have hcut := cutsOnlyCircles hbase hfrom hview
    exact ⟨_, _, _, n, hfrom, hview, hacyclic, horigin, hmem, hplace, hcut.root hacyclic,
      hcut.children hacyclic [] _ _ _ _ rfl hsource hmem⟩

/-! ### Views of two documents -/

/-- How many marks do not enclose a place. -/
def outside (marks : List Location) (l : Location) : Nat :=
  marks.countP fun m => !m.encloses l

theorem outside_child_le (marks : List Location) (l : Location) (s : Segment) :
    outside marks ⟨l.document, l.path.child s⟩ ≤ outside marks l := by
  refine List.countP_mono_left fun m _ hm => ?_
  rw [Bool.not_eq_true'] at hm ⊢
  cases hl : m.encloses l with
  | false => rfl
  | true => exact absurd (Location.encloses_child hl s) (by rw [hm]; exact Bool.false_ne_true)

/-- Where every edge leads into more marks than it leads out of, there are no circles. -/
theorem acyclic_of_marks (marks : List Location)
    (h : ∀ d ∈ v.documents, ∀ e ∈ d.references.edges, outside marks e.target < outside marks ⟨d.id, e.origin⟩) :
    v.Acyclic := by
  have hedge : ∀ l e, v.edge? l = some e → outside marks e.target < outside marks l := by
    intro l e he
    obtain ⟨d, hd, he⟩ := Option.bind_eq_some_iff.mp he
    have hlt := h d (List.mem_of_find?_eq_some hd) e (ReferenceTable.mem_of_edge? he)
    rwa [show d.id = l.document from key_of_find? hd, show e.origin = l.path from key_of_find? he] at hlt
  have hsteps : ∀ {l t}, ReflTransGen v.Step l t → outside marks t ≤ outside marks l := by
    intro l t hsteps
    induction hsteps with
    | refl => exact Nat.le_refl _
    | tail _ hstep ih =>
      cases hstep with
      | down => exact (outside_child_le marks _ _).trans ih
      | jump he => exact (hedge _ _ he).le.trans ih
  intro l e he hback
  exact absurd (hedge l e he) (Nat.not_lt_of_le (hsteps hback))

theorem ofDocument_of_pair {files : FileSystem} {g : Graph} {id : DocumentId} {root other : Loaded}
    (hroot : root ∈ (g.load files id).1.toOption)
    (hother : (loadTargets files [root.id] root.references.edges (g.load files id).2).1 = [other])
    (hfiles : files.files ≠ []) (hne : other.id ≠ root.id)
    (hown : ∀ e ∈ other.references.edges, e.target.document = other.id) :
    ofDocument files g id
      = (.ok ⟨root, [other]⟩, (loadTargets files [root.id] root.references.edges (g.load files id).2).2) := by
  rw [ofDocument]
  cases hload : g.load files id with
  | mk answer next =>
    rw [hload] at hroot hother
    cases answer with
    | error e => cases hroot
    | ok root' =>
      cases hroot
      dsimp only
      rw [ofLoaded_of_pair (Prod.ext hother rfl) hfiles hne hown]

/-- A document that the empty graph loads and the only one that it refers to are a view without circles, if the references
of the other one stay in it and every edge leads into more marks than it leads out of. -/
theorem ofDocument_pair_acyclic {files : FileSystem} {base : FilePath} (hbase : base.isAbsolute = true)
    {id : DocumentId} {root other : Loaded} (marks : List Location)
    (hroot : root ∈ (Graph.load files (.empty base) id).1.toOption) :
    let found := loadTargets files [root.id] root.references.edges (Graph.load files (.empty base) id).2
    found.1.length = 1 → other ∈ found.1.head? → files.files ≠ [] → other.id ≠ root.id →
    (∀ e ∈ other.references.edges, e.target.document = other.id) →
    (∀ d ∈ [root, other], ∀ e ∈ d.references.edges, outside marks e.target < outside marks ⟨d.id, e.origin⟩) →
    ofDocument files (.empty base) id = (.ok ⟨root, [other]⟩, found.2) ∧ found.2.Consistent ∧
      Gathers found.2 (View.mk root [other]).documents [] ∧ (View.mk root [other]).Acyclic := by
  intro found hone hother hfiles hne hown hmarks
  obtain ⟨other', hfound⟩ := List.length_eq_one_iff.mp hone
  rw [hfound] at hother
  cases hother
  have hview := ofDocument_of_pair hroot hfound hfiles hne hown
  obtain ⟨hg, hgathers⟩ := gathers_ofDocument (Graph.consistent_empty hbase) hview
  exact ⟨hview, hg, hgathers, acyclic_of_marks marks hmarks⟩

end View

end ApiLint
