import ApiLint.Proofs.Graph.Histories
import ApiLint.Proofs.View.Landing

/-!
# Following and viewing

A chain of references may be followed in the graph, where the nodes landed on are kept and the chain ends in a circle
when it comes back to one of them.  It may also be looked at in a view, which crosses references as long as their targets
enclose nothing of the trail.  Where no reference is crossed on the way to a place, both start the same chain there, and
`View.Foretells` says what can be told from the node of the view: the node at which following ends, or the error, or, if
the view stopped at a reference that it does not follow, what following comes to from there on.

The two keep different books, so they are not compared round by round.  Either the chain has an end, or it leads to a
place from which it leads back (`View.Comes.ending_of_self`).  For no place both hold, and wherever on the chain one
starts, the same of the two holds (`View.Comes.agrees`).
-/

namespace ApiLint

open Relation (ReflTransGen TransGen)
open ApiLint.Graph (Grows)

variable {files : FileSystem} {g : Graph}

/-- The same node, the same error, or two circles. -/
inductive Resolution.Agrees : Resolution → Resolution → Prop
  | resolved (d : Document) (p : Path) : Agrees (.resolved d p) (.resolved d p)
  | unresolved (e : ReferenceError) : Agrees (.unresolved e) (.unresolved e)
  | cycle (t t' : Location) : Agrees (.cycle t) (.cycle t')

namespace View

variable {v : View} {visited : List Location} {l t t' : Location} {r r' : Resolution}

/-! ### Chains from two places -/

theorem Stops.agrees (h : v.Stops t r) (h' : v.Stops t r') : r.Agrees r' := by
  cases h with
  | resolved hd _ herror =>
    cases h' with
    | resolved hd' _ _ => cases hd.symm.trans hd'; exact .resolved _ _
    | unresolved hd' _ herror' => cases hd.symm.trans hd'; cases herror.symm.trans herror'
  | unresolved hd _ herror =>
    cases h' with
    | resolved hd' _ herror' => cases hd.symm.trans hd'; cases herror.symm.trans herror'
    | unresolved hd' _ herror' => cases hd.symm.trans hd'; cases herror.symm.trans herror'; exact .unresolved _

/-- A place from which a chain leads to its end is not led back to. -/
theorem not_back_of_end (hend : ReflTransGen v.Jump l t) (hedge : v.edge? t = none) : ¬ TransGen v.Jump l l := by
  intro hback
  induction hend using ReflTransGen.head_induction_on with
  | refl =>
    obtain ⟨u, ⟨e, he, -⟩, -⟩ := TransGen.head'_iff.mp hback
    cases hedge.symm.trans he
  | head hjump _ ih =>
    -- going once round from the next place comes back to it
    obtain ⟨u, hjump', hround⟩ := TransGen.head'_iff.mp hback
    obtain rfl := hjump.unique hjump'
    exact ih (.tail' hround hjump)

/-- A chain that has an end does not lead to a place from which it leads back. -/
theorem not_back_of_jumps (hend : ReflTransGen v.Jump l t) (hedge : v.edge? t = none)
    (hjumps : ReflTransGen v.Jump l t') : ¬ TransGen v.Jump t' t' := by
  rcases ReflTransGen.total_of_right_unique (Jump.rightUnique v) hend hjumps with hrest | hrest
  · rw [← eq_of_end hedge hrest]
    exact not_back_of_end .refl hedge
  · exact not_back_of_end hrest hedge

/-- **Wherever on a chain one starts, following comes to the same.** -/
theorem Comes.agrees (h : v.Comes [l] l r) (hjumps : ReflTransGen v.Jump l t) (h' : v.Comes [t] t r') :
    r.Agrees r' := by
  rcases h.ending_of_self with ⟨u, hend, hstop⟩ | ⟨u, rfl, hround, hback⟩
  · rcases h'.ending_of_self with ⟨u', hend', hstop'⟩ | ⟨u', rfl, hround', hback'⟩
    · obtain rfl : u = u' := end_unique hend hstop.edge?_eq_none (hjumps.trans hend') hstop'.edge?_eq_none
      exact hstop.agrees hstop'
    · exact absurd hback' (not_back_of_jumps hend hstop.edge?_eq_none (hjumps.trans hround'))
  · rcases h'.ending_of_self with ⟨u', hend', hstop'⟩ | ⟨u', rfl, -, -⟩
    · exact absurd hback (not_back_of_jumps (hjumps.trans hend') hstop'.edge?_eq_none hround)
    · exact .cycle u u'

/-! ### Ways without a reference -/

/-- No reference is crossed on the way to what `p` leads to.  At `p` itself there may be one. -/
def Uncrossed (v : View) (p : Path) : Prop :=
  ∀ q, q <+: p → q ≠ p → ∃ n ∈ v.nodeAt? q, ∃ o ∈ n.origin, o.crossed = []

/-- A walk that crosses no reference stays in the viewed document. -/
theorem Walk.place_of_uncrossed {targets : List Location} {p : Path} {place : Location} {crossed : List Location}
    {value : Value} (h : v.Walk targets p place crossed value) (hcrossed : crossed = []) : place = ⟨v.id, p⟩ := by
  induction h with
  | root => rfl
  | cross => cases hcrossed
  | down _ _ _ ih => rw [ih hcrossed]

/-- At the end of a way without a reference stands what is entered there. -/
theorem nodeAt?_of_uncrossed (hv : v.Complete) {p : Path} (hp : (v.root.document.valueAt? p).isSome)
    (h : v.Uncrossed p) : ∃ targets value, v.Walk targets p ⟨v.id, p⟩ [] value ∧
      v.nodeAt? p = some (Node.enter v ⟨v.id, p⟩ [] value) := by
  rcases List.eq_nil_or_concat' p with rfl | ⟨q, s, rfl⟩
  · exact ⟨[], _, .root, rfl⟩
  · have hproper : q ≠ q ++ [s] := by simp
    obtain ⟨n, hn, o, ho, hcrossed⟩ := h q (List.prefix_append q [s]) hproper
    obtain ⟨targets, place, crossed, value, hwalk, hstay, rfl⟩ := reaches_of_nodeAt? hn
    cases ho
    obtain rfl : crossed = [] := hcrossed
    obtain rfl := hwalk.place_of_uncrossed rfl
    have hvalue : v.root.document.value.get? q = some value := by
      have hplace := hwalk.valueAt?_place hv.distinct
      rwa [valueAt?, id, hv.root] at hplace
    rw [Document.valueAt?, Value.get?_append, hvalue, Option.bind_some, Value.get?_cons] at hp
    cases hchild : value.child? s with
    | none =>
      rw [hchild] at hp
      cases hp
    | some w =>
      refine ⟨targets, w, hwalk.down hstay (Value.mem_children_of_child? hchild), ?_⟩
      rw [nodeAt?, ← Path.child, Node.at?_child hn, Node.child?, hchild]
      rfl

/-! ### What the view tells of following -/

/-- What following the chain that starts at `p` comes to, told by the node that the view has there.  The node was written
at `l`, in the document `d`. -/
structure Foretells (v : View) (follow : Location → Except LoadError Resolution) (p : Path) (n : Node) (l : Location)
    (d : Loaded) : Prop where
  node : v.nodeAt? p = some n
  source : n.source? = some l
  document : v.document? l.document = some d
  /-- Without an edge and an error, following ends at the node. -/
  ends : d.references.edge? l.path = none → d.references.error? l.path = none →
    follow ⟨v.id, p⟩ = .ok (.resolved d.document l.path)
  /-- An error is what following comes to. -/
  fails : ∀ e, d.references.error? l.path = some e → follow ⟨v.id, p⟩ = .ok (.unresolved e)
  /-- With an edge, the view stopped at a reference, and following comes to what it comes to from there on. -/
  cut : ∀ e, d.references.edge? l.path = some e → (n.value.reference?).isSome ∧
    ∃ r r', follow ⟨v.id, p⟩ = .ok r ∧ follow l = .ok r' ∧ r.Agrees r'
  /-- If following goes round in a circle, the node is a reference object as it is written. -/
  circle : ∀ t, follow ⟨v.id, p⟩ = .ok (.cycle t) → (n.value.reference?).isSome

theorem Gathers.foretells (h : Gathers g v.documents []) (hg : g.Consistent)
    {follow : Location → Except LoadError Resolution}
    (hfollow : ∀ l, (v.document? l.document).isSome → ∃ r, follow l = .ok r ∧ v.Comes [l] l r) {p : Path}
    (hp : (v.root.document.valueAt? p).isSome) (huncrossed : v.Uncrossed p) :
    ∃ n l d, v.Foretells follow p n l d := by
  have hv := h.complete hg
  obtain ⟨targets, value, hwalk, hnode⟩ := nodeAt?_of_uncrossed hv hp huncrossed
  obtain ⟨l, hsource, hjumps, hvalue⟩ := hwalk.jumps_enter hv
  obtain ⟨d, hd, hheld, -⟩ := h.exists_document hvalue
  have hroot : (v.document? v.id).isSome := by rw [id, hv.root]; rfl
  obtain ⟨r, hr, hcomes⟩ := hfollow ⟨v.id, p⟩ hroot
  obtain ⟨r', hr', hcomes'⟩ := hfollow l (by rw [hd]; rfl)
  have hagrees := hcomes.agrees hjumps hcomes'
  have hpartitions := (hg.partitions hheld).1
  have hends : ∀ {r''}, v.Stops l r'' → r.Agrees r'' := fun hstop => hcomes.agrees hjumps (.stops hstop)
  have hreference : ∀ e, d.references.edge? l.path = some e →
      ((Node.enter v ⟨v.id, p⟩ [] value).value.reference?).isSome := by
    intro e hedge
    obtain ⟨w, hw, href⟩ := hv.origin l e ((edge?_of_document? hd).trans hedge)
    cases hvalue.symm.trans hw
    exact href
  refine ⟨_, l, d, hnode, hsource, hd, ?ends, ?fails, ?cut, ?circle⟩
  case ends =>
    intro hedge herror
    rw [hr]
    cases hends (.resolved hd hedge herror)
    rfl
  case fails =>
    intro e herror
    have hnone := hpartitions.edge?_eq_none (List.mem_of_find?_eq_some herror)
    rw [show e.origin = l.path from key_of_find? herror] at hnone
    rw [hr]
    cases hends (.unresolved hd hnone herror)
    rfl
  case cut => exact fun e hedge => ⟨hreference e hedge, r, r', hr, hr', hagrees⟩
  case circle =>
    intro t ht
    obtain rfl : r = .cycle t := Except.ok.inj (hr.symm.trans ht)
    cases hedge : d.references.edge? l.path with
    | some e => exact hreference e hedge
    | none =>
      -- a chain that stops does not go round
      cases herror : d.references.error? l.path with
      | none => cases hends (.resolved hd hedge herror)
      | some e => cases hends (.unresolved hd hedge herror)

/-- **What following a chain of references comes to can be told from the view**, where the view has crossed no reference on
the way. -/
theorem exists_foretells {base : FilePath} (hbase : base.isAbsolute = true) {s : Session} (hs : s.From base)
    {ops ops' : List Operation} (hops : ∀ op ∈ ops, op.isRequest = true) (hops' : ∀ op ∈ ops', op.isRequest = true)
    {id : DocumentId} (h : (ofDocument s.files (s.run ops).graph id).1 = .ok v) {p : Path}
    (hp : (v.root.document.valueAt? p).isSome) (huncrossed : v.Uncrossed p) :
    ∃ n l d, v.Foretells (fun l => ((s.run ops').graph.follow s.files l.document l.path).1) p n l d := by
  have hg₀ := hs.consistent hbase
  obtain ⟨-, hgrows⟩ := Session.grows_of_requests hg₀ hops
  obtain ⟨-, hgrows'⟩ := Session.grows_of_requests hg₀ hops'
  -- the view that is made first is the same, and its documents are those that would be loaded
  rw [(settled_ofDocument hg₀ s.files id).same _ hgrows] at h
  have hafter := (settled_ofDocument hg₀ s.files id).grows _ (.refl s.files hg₀)
  obtain ⟨hg, hgathers⟩ := gathers_ofDocument hg₀ (Prod.ext h rfl)
  have hanswer : ∀ id d, v.document? id = some d → (s.graph.load s.files id).1 = .ok d := by
    intro id d hd
    rw [← (Graph.settled_load hg₀ s.files id).same _ hafter]
    exact hgathers.load_of_document? hg s.files hd
  refine hgathers.foretells hg (fun l hl => ?_) hp huncrossed
  obtain ⟨d, hd⟩ := Option.isSome_iff_exists.mp hl
  obtain ⟨r, hr, hchain⟩ := Graph.chain_follow hg₀ hgrows' (hanswer _ _ hd) l.path
  have hplace : (⟨d.id, l.path⟩ : Location) = l := by rw [show d.id = l.document from key_of_find? hd]
  rw [hplace] at hchain
  exact ⟨r, hr, hgathers.comes_of_chain hg hanswer hchain rfl hd⟩

/-- A chain that leads into a circle it is not part of.  The view crosses two references and stops at the third one, which
leads back into the circle; followed from the start or from there, the chain goes round. -/
theorem exists_foretells_of_circle : ∃ s : Session, ∃ ops ops' v p, (⟨"/"⟩ : FilePath).isAbsolute = true ∧
    s.From ⟨"/"⟩ ∧ (∀ op ∈ ops, op.isRequest = true) ∧ (∀ op ∈ ops', op.isRequest = true) ∧
      (ofDocument s.files (s.run ops).graph ⟨"a.json"⟩).1 = .ok v ∧ (v.root.document.valueAt? p).isSome ∧
      v.Uncrossed p ∧ (∃ n ∈ v.nodeAt? p, n.source? = some ⟨⟨"/a.json"⟩, [.key "y"]⟩) ∧
      (∃ r ∈ ((s.run ops').graph.follow s.files v.id p).1.toOption, r.isCycle = true) ∧
      ∃ n l d, v.Foretells (fun l => ((s.run ops').graph.follow s.files l.document l.path).1) p n l d := by
  let files : FileSystem := ⟨[(⟨"/a.json"⟩,
    "\x7b\"p\":\x7b\"$ref\":\"#/x\"\x7d,\"x\":\x7b\"$ref\":\"#/y\"\x7d,\"y\":\x7b\"$ref\":\"#/x\"\x7d\x7d")],
    fun _ => "no such file"⟩
  let s : Session := ⟨files, .empty ⟨"/"⟩⟩
  let ops : List Operation := [.follow ⟨"a.json"⟩ [.key "x"]]
  let ops' : List Operation := [.load ⟨"./a.json"⟩]
  have hbase : (⟨"/"⟩ : FilePath).isAbsolute = true := by decide +kernel
  have hfrom : s.From ⟨"/"⟩ := ⟨files, [], rfl⟩
  have hops : ∀ op ∈ ops, op.isRequest = true := by decide +kernel
  have hops' : ∀ op ∈ ops', op.isRequest = true := by decide +kernel
  have hfacts : ∃ root ∈ ((s.run ops).graph.load files ⟨"a.json"⟩).1.toOption,
      (∀ e ∈ root.references.edges, e.target.document = root.id) ∧
        (root.document.valueAt? [.key "p"]).isSome ∧
        (∃ n ∈ (View.mk root []).nodeAt? [], ∃ o ∈ n.origin, o.crossed = []) ∧
        (∃ n ∈ (View.mk root []).nodeAt? [.key "p"], n.source? = some ⟨⟨"/a.json"⟩, [.key "y"]⟩) ∧
        ∃ r ∈ ((s.run ops').graph.follow files root.id [.key "p"]).1.toOption, r.isCycle = true := by
    decide +kernel
  obtain ⟨root, hroot, hown, hp, hstart, hsource, hcycle⟩ := hfacts
  cases hload : (s.run ops).graph.load files ⟨"a.json"⟩ with
  | mk answer g =>
    rw [hload] at hroot
    cases answer with
    | error e => cases hroot
    | ok root' =>
      cases hroot
      have hview := congrArg Prod.fst (ofDocument_of_own hload hown)
      have huncrossed : (View.mk root []).Uncrossed [.key "p"] := by
        intro q hq hne
        rcases List.prefix_cons_iff.mp hq with rfl | ⟨q', rfl, hq'⟩
        · exact hstart
        · rw [List.prefix_nil.mp hq'] at hne
          exact absurd rfl hne
      exact ⟨s, ops, ops', _, _, hbase, hfrom, hops, hops', hview, hp, huncrossed, hsource, hcycle,
        exists_foretells hbase hfrom hops hops' hview hp huncrossed⟩

end View

end ApiLint
