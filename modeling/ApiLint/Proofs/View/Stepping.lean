import ApiLint.Proofs.Graph.Answers
import ApiLint.Proofs.Graph.Contents
import ApiLint.Proofs.View.Places
import Mathlib.Logic.Relation

/-!
# Stepping through a view

There are many ways to step from a node: to the member of a name, to the element at an index, to the child that a segment
leads to, along a path, or to one of the nodes that are listed as members, elements or children (`Node.Step`).  Over any
number of steps of any kind, the value, the document and the path of a node stay together: it has the value that its
document has at its path (`View.IsCoherent.placed`).  And the ways of stepping agree: what is listed is what a name, an
index or a segment leads to, and a path in two parts leads where its parts lead.

Every step goes along a path (`Node.Step.exists_at?`), so that a walk leads to every node that is reached
(`View.exists_nodeAt?_of_steps`), and a walk is at the value that was written at its place.
-/

namespace ApiLint

open Relation (ReflTransGen)

namespace Node

variable {n c : Node}

/-! ### Ways of stepping -/

def member? (n : Node) (k : String) : Option Node :=
  (n.value.member? k).map (n.descend (.key k))

def element? (n : Node) (i : Nat) : Option Node :=
  (n.value.element? i).map (n.descend (.index i))

inductive Step (n : Node) : Node → Prop
  | member {c : Node} {k : String} : n.member? k = some c → Step n c
  | element {c : Node} {i : Nat} : n.element? i = some c → Step n c
  | child {c : Node} {s : Segment} : n.child? s = some c → Step n c
  | path {c : Node} {p : Path} : n.at? p = some c → Step n c
  | listedMember {c : Node} {k : String} : (k, c) ∈ n.members → Step n c
  | listedElement {c : Node} : c ∈ n.elements → Step n c
  | listedChild {c : Node} {s : Segment} : (s, c) ∈ n.children → Step n c

theorem at?_singleton (n : Node) (s : Segment) : n.at? [s] = n.child? s :=
  at?_child (show n.at? [] = some n from rfl) s

/-- The members are listed among the children, each under its name. -/
theorem mem_members_iff {k : String} : (k, c) ∈ n.members ↔ (.key k, c) ∈ n.children := by
  obtain ⟨value, origin⟩ := n
  cases value <;> simp [members, children, Value.members?, Value.children]

/-- The elements are listed in the order of their indexes. -/
theorem getElem?_elements (n : Node) (i : Nat) : n.elements[i]? = n.element? i := by
  obtain ⟨value, origin⟩ := n
  cases value with
  | array items =>
    rw [elements, element?, Value.items?, Option.getD_some, List.getElem?_map, List.getElem?_zipIdx, Nat.zero_add,
      Option.map_map]
    rfl
  | _ => rfl

/-- Every step goes along a path. -/
theorem Step.exists_at? (hc : n.Step c) (h : n.HasDistinctNames) : ∃ p, n.at? p = some c := by
  cases hc with
  | @member k hc => exact ⟨[.key k], (n.at?_singleton _).trans hc⟩
  | @element i hc => exact ⟨[.index i], (n.at?_singleton _).trans hc⟩
  | @child s hc => exact ⟨[s], (n.at?_singleton s).trans hc⟩
  | @path p hc => exact ⟨p, hc⟩
  | @listedMember k hc => exact ⟨[.key k], (n.at?_singleton _).trans (h.mem_children_iff.mp (mem_members_iff.mp hc))⟩
  | listedElement hc =>
    obtain ⟨i, hi⟩ := List.mem_iff_getElem?.mp hc
    exact ⟨[.index i], (n.at?_singleton _).trans ((n.getElem?_elements i).symm.trans hi)⟩
  | @listedChild s hc => exact ⟨[s], (n.at?_singleton s).trans (h.mem_children_iff.mp hc)⟩

end Node

namespace View

variable {v : View}

/-! ### Views in which one may step -/

/-- The node stands at a place of a document of the view, and has the value that is there. -/
def Places (v : View) (n : Node) : Prop :=
  ∃ l d, n.source? = some l ∧ d ∈ v.documents ∧ v.document? l.document = some d ∧ d.id = l.document ∧
    d.document.valueAt? l.path = some n.value

/-- Whatever steps are taken from the root of the view, the nodes stand where their values were written, and the ways of
stepping agree. -/
structure IsCoherent (v : View) : Prop where
  /-- A node has the value that a document of the view has at its path. -/
  placed : ∀ n, ReflTransGen Node.Step v.node n → v.Places n
  /-- What is listed with a segment is the child that the segment leads to, and nothing else is listed. -/
  listed : ∀ n, ReflTransGen Node.Step v.node n → ∀ s c, (s, c) ∈ n.children ↔ n.child? s = some c
  /-- A segment with a name leads to the member of that name, which is listed under it. -/
  members : ∀ n, ReflTransGen Node.Step v.node n → ∀ k c,
    (n.child? (.key k) = some c ↔ n.member? k = some c) ∧ ((k, c) ∈ n.members ↔ n.member? k = some c)
  /-- A segment with an index leads to the element there, which is listed at it. -/
  elements : ∀ n, ReflTransGen Node.Step v.node n → ∀ i,
    n.child? (.index i) = n.element? i ∧ n.elements[i]? = n.element? i
  /-- A path leads where its second part leads from where its first part leads. -/
  parts : ∀ n, ReflTransGen Node.Step v.node n → ∀ p q, n.at? (p ++ q) = (n.at? p).bind fun m => m.at? q

/-- Over any steps, a walk leads to the node. -/
theorem exists_nodeAt?_of_steps (hv : v.HasDistinctNames) {n : Node} (h : ReflTransGen Node.Step v.node n) :
    ∃ p, v.nodeAt? p = some n := by
  induction h with
  | refl => exact ⟨[], rfl⟩
  | tail _ hstep ih =>
    obtain ⟨p, hp⟩ := ih
    obtain ⟨q, hq⟩ := hstep.exists_at? (hv.node.of_at? hp)
    refine ⟨p ++ q, ?_⟩
    rw [nodeAt?] at hp ⊢
    rw [Node.at?_append, hp, Option.bind_some, hq]

theorem HasDistinctNames.places (hv : v.HasDistinctNames) {p : Path} {n : Node} (h : v.nodeAt? p = some n) :
    v.Places n := by
  obtain ⟨targets, place, crossed, value, hwalk, -, rfl⟩ := reaches_of_nodeAt? h
  obtain ⟨d, hd, hvalue⟩ := Option.bind_eq_some_iff.mp (hwalk.valueAt?_place hv)
  exact ⟨place, d, rfl, List.mem_of_find?_eq_some hd, hd, key_of_find? hd, hvalue⟩

theorem HasDistinctNames.isCoherent (hv : v.HasDistinctNames) : v.IsCoherent := by
  have hdistinct : ∀ n, ReflTransGen Node.Step v.node n → n.HasDistinctNames := by
    intro n hn
    obtain ⟨p, hp⟩ := exists_nodeAt?_of_steps hv hn
    exact hv.node.of_at? hp
  refine ⟨fun n hn => ?_, fun n hn s c => (hdistinct n hn).mem_children_iff, fun n hn k c => ⟨Iff.rfl, ?_⟩,
    fun n _ i => ⟨rfl, n.getElem?_elements i⟩, fun n _ => n.at?_append⟩
  · obtain ⟨p, hp⟩ := exists_nodeAt?_of_steps hv hn
    exact hv.places hp
  · rw [Node.mem_members_iff]
    exact (hdistinct n hn).mem_children_iff

/-- **In every view one may step as one likes**: whatever the session was asked for before, in whatever base directory, and
whatever document is viewed. -/
theorem isCoherent_ofLoaded {base : FilePath} {s : Session} (hs : s.From base) {root : Loaded}
    (hroot : root.document.IsRead) : (ofLoaded s.files s.graph root).1.IsCoherent := by
  have hread : (ofLoaded s.files s.graph root).1.IsRead := (allRead_ofLoaded hs.isRead s.files hroot).2
  exact hread.hasDistinctNames.isCoherent

/-- The reference in an element of the viewed document leads to another document, and there a further one is crossed: the
element that is reached has the value that the other document has where both chains end. -/
theorem isCoherent_ofLoaded_of_chain : ∃ s : Session, ∃ root : Loaded, ∃ n, s.From ⟨"/"⟩ ∧ root.document.IsRead ∧
    (ofLoaded s.files s.graph root).1.nodeAt? [.key "x", .index 0, .key "w", .index 1] = some n ∧
      n.source? = some ⟨⟨"/b.json"⟩, [.key "z", .key "w", .index 1]⟩ ∧
      (ofLoaded s.files s.graph root).1.Places n ∧ (ofLoaded s.files s.graph root).1.IsCoherent := by
  let files : FileSystem := ⟨[
    (⟨"/a.json"⟩, "\x7b\"x\":[\x7b\"$ref\":\"b.json#/y\"\x7d]\x7d"),
    (⟨"/b.json"⟩, "\x7b\"y\":\x7b\"$ref\":\"#/z\"\x7d,\"z\":\x7b\"w\":[1,true]\x7d\x7d")],
    fun _ => "no such file"⟩
  let s : Session := ⟨files, (Graph.load files (.empty ⟨"/"⟩) ⟨"a.json"⟩).2⟩
  have hs : s.From ⟨"/"⟩ := ⟨files, [.load ⟨"a.json"⟩], rfl⟩
  have hfacts : ∃ root ∈ (Graph.load files (.empty ⟨"/"⟩) ⟨"a.json"⟩).1.toOption,
      let found := loadTargets files [root.id] root.references.edges s.graph
      found.1.length = 1 ∧ ∃ other ∈ found.1.head?, other.id ≠ root.id ∧
        (∀ e ∈ other.references.edges, e.target.document = other.id) ∧
        ∃ n ∈ (View.mk root [other]).nodeAt? [.key "x", .index 0, .key "w", .index 1],
          n.source? = some ⟨⟨"/b.json"⟩, [.key "z", .key "w", .index 1]⟩ := by
    decide +kernel
  obtain ⟨root, hroot, hone, other, hother, hne, hown, n, hn, hsource⟩ := hfacts
  have hread : root.document.IsRead :=
    ((Graph.isRead_empty ⟨"/"⟩).load files ⟨"a.json"⟩).2 root (Graph.load_of_mem_toOption hroot)
  obtain ⟨other', hfound⟩ := List.length_eq_one_iff.mp hone
  rw [hfound] at hother
  obtain rfl := Option.some.inj hother
  have hview : (ofLoaded s.files s.graph root).1 = ⟨root, [other']⟩ := by
    rw [ofLoaded_of_pair (Prod.ext hfound rfl) (List.cons_ne_nil _ _) hne hown]
  have hcoherent := isCoherent_ofLoaded hs hread
  rw [← hview] at hn
  exact ⟨s, root, n, hs, hread, hn, hsource, hcoherent.placed n (.single (.path hn)), hcoherent⟩

end View

end ApiLint
