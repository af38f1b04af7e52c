import ApiLint.Node
import ApiLint.Proofs.Graph.Chains
import ApiLint.Proofs.Graph.Sessions
import ApiLint.Proofs.View.Answers

/-!
# Histories leave no trace

While no file comes or changes, a graph answers as if it had never been asked for anything.  Every request lets it grow
(`Session.grows_of_requests`), and loading, following a chain and making a view are settled from the empty graph on.
So two graphs of one directory, whatever each was asked for before, answer the same to requests for one document
(`Session.answers_alike`).
-/

namespace ApiLint

open ApiLint.Graph (Grows Settled)

def Operation.isRequest : Operation → Bool
  | insert _ _ => false
  | load _ | loadParsed _ | get _ | follow _ _ | view _ => true

namespace Graph

/-- `g` answers to requests for `p` what `h` answers to requests for `q`. -/
structure Alike (files : FileSystem) (g h : Graph) (p q : FilePath) : Prop where
  /-- The document is the same, with its value, its positions, and its table of edges and errors in order. -/
  load : (g.load files p).1 = (h.load files q).1
  /-- Chains of references come to the same, wherever they start. -/
  follow : ∀ path, (g.follow files p path).1 = (h.follow files q path).1
  /-- The view is the same, or the reason why there is none. -/
  view : (View.ofDocument files g p).1 = (View.ofDocument files h q).1
  /-- Views have the same documents, and every path leads to the same value and to the same place. -/
  nodes : ∀ v w, (View.ofDocument files g p).1 = .ok v → (View.ofDocument files h q).1 = .ok w →
    v.documents = w.documents ∧ ∀ path, (v.nodeAt? path).map (fun n => (n.value, n.source?))
      = (w.nodeAt? path).map fun n => (n.value, n.source?)

variable {files : FileSystem} {g₀ g h : Graph} {p q : FilePath}

/-- A load depends on the canonical form of its path. -/
theorem load_congr (g : Graph) (files : FileSystem) (hpq : g.canonical p = g.canonical q) :
    g.load files p = g.load files q := by
  have hparsed : g.loadParsed files p = g.loadParsed files q := by
    cases ho : g.outcome? (g.canonical p) with
    | some o => rw [loadParsed_of_some ho, loadParsed_of_some (hpq ▸ ho)]
    | none => rw [loadParsed_of_none ho, loadParsed_of_none (hpq ▸ ho), hpq]
  rw [load, load, hparsed]

/-- Graphs of common origin are alike. -/
theorem Grows.alike (hg₀ : g₀.Consistent) (hg : Grows files g₀ g) (hh : Grows files g₀ h)
    (hpq : g₀.canonical p = g₀.canonical q) : Alike files g h p q := by
  have hload := g₀.load_congr files hpq
  have hfollow : ∀ path, g₀.follow files p path = g₀.follow files q path := by
    intro path
    rw [Graph.follow, Graph.follow, hload]
  have hview : View.ofDocument files g₀ p = View.ofDocument files g₀ q := by
    rw [View.ofDocument, View.ofDocument, hload]
  have hviews : (View.ofDocument files g p).1 = (View.ofDocument files h q).1 := by
    rw [(View.settled_ofDocument hg₀ files p).same g hg, (View.settled_ofDocument hg₀ files q).same h hh, hview]
  refine ⟨?load, ?follow, hviews, ?nodes⟩
  case load => rw [(settled_load hg₀ files p).same g hg, (settled_load hg₀ files q).same h hh, hload]
  case follow =>
    intro path
    rw [(settled_follow hg₀ files p path).same g hg, (settled_follow hg₀ files q path).same h hh, hfollow]
  case nodes =>
    intro v w hv hw
    obtain rfl : v = w := Except.ok.inj (hv.symm.trans (hviews.trans hw))
    exact ⟨rfl, fun path => rfl⟩

end Graph

namespace Session

/-- Requests leave the files as they are and let the graph grow. -/
theorem grows_of_requests {s : Session} (hs : s.graph.Consistent) {ops : List Operation}
    (hops : ∀ op ∈ ops, op.isRequest = true) :
    (s.run ops).files = s.files ∧ Grows s.files s.graph (s.run ops).graph := by
  induction ops generalizing s with
  | nil => exact ⟨rfl, .refl s.files hs⟩
  | cons op ops ih =>
    obtain ⟨_, hstep⟩ := stepped hs op
    have hfiles : (s.step op).files = s.files := by
      have hop := hops op (List.mem_cons_self ..)
      cases op with
      | insert p text => cases hop
      | _ => rfl
    obtain ⟨hrest, hgrows⟩ := ih hstep.consistent fun op' hop' => hops op' (List.mem_cons_of_mem op hop')
    rw [hfiles] at hrest hgrows
    exact ⟨hrest, hstep.toGrows.trans hgrows⟩

/-- **What a graph answers does not depend on what it was asked for before.** -/
theorem answers_alike {base : FilePath} (hbase : base.isAbsolute = true) (files : FileSystem)
    {ops ops' : List Operation} (hops : ∀ op ∈ ops, op.isRequest = true)
    (hops' : ∀ op ∈ ops', op.isRequest = true) {p q : FilePath}
    (hpq : FilePath.canonical base p = FilePath.canonical base q) :
    Graph.Alike files (run ⟨files, .empty base⟩ ops).graph (run ⟨files, .empty base⟩ ops').graph p q := by
  have hempty := Graph.consistent_empty hbase
  exact (grows_of_requests (s := ⟨files, .empty base⟩) hempty hops).2.alike hempty
    (grows_of_requests (s := ⟨files, .empty base⟩) hempty hops').2 hpq

/-- Two documents that refer to each other, and a file that is missing.  One graph came to the first document over the
second, following a chain that goes round in a circle; the other was asked for the missing file and for a view. -/
theorem answers_alike_after_requests : ∃ files : FileSystem, ∃ ops ops' : List Operation,
    (⟨"/"⟩ : FilePath).isAbsolute = true ∧ (∀ op ∈ ops, op.isRequest = true) ∧ (∀ op ∈ ops', op.isRequest = true) ∧
      FilePath.canonical ⟨"/"⟩ ⟨"x/../a.json"⟩ = FilePath.canonical ⟨"/"⟩ ⟨"a.json"⟩ ∧
      (run ⟨files, .empty ⟨"/"⟩⟩ ops).graph.reads = 3 ∧
      (((run ⟨files, .empty ⟨"/"⟩⟩ ops).graph.load files ⟨"x/../a.json"⟩).1.toOption.map fun l =>
        (l.references.edges.length, l.references.unresolved.length)) = some (1, 1) ∧
      Graph.Alike files (run ⟨files, .empty ⟨"/"⟩⟩ ops).graph (run ⟨files, .empty ⟨"/"⟩⟩ ops').graph
        ⟨"x/../a.json"⟩ ⟨"a.json"⟩ := by
  let files : FileSystem := ⟨[
    (⟨"/a.json"⟩, "\x7b\"x\":\x7b\"$ref\":\"b.json#/y\"\x7d,\"z\":\x7b\"$ref\":\"c.json\"\x7d\x7d"),
    (⟨"/b.json"⟩, "\x7b\"y\":\x7b\"$ref\":\"a.json#/x\"\x7d\x7d")], fun _ => "no such file"⟩
  let ops : List Operation := [.loadParsed ⟨"b.json"⟩, .follow ⟨"/b.json"⟩ [.key "y"], .get ⟨"c.json"⟩]
  let ops' : List Operation := [.load ⟨"c.json"⟩, .view ⟨"./a.json"⟩]
  have hbase : (⟨"/"⟩ : FilePath).isAbsolute = true := by decide +kernel
  have hops : ∀ op ∈ ops, op.isRequest = true := by decide +kernel
  have hops' : ∀ op ∈ ops', op.isRequest = true := by decide +kernel
  have hpq : FilePath.canonical ⟨"/"⟩ ⟨"x/../a.json"⟩ = FilePath.canonical ⟨"/"⟩ ⟨"a.json"⟩ := by decide +kernel
  exact ⟨files, ops, ops', hbase, hops, hops', hpq, by decide +kernel, by decide +kernel,
    answers_alike hbase files hops hops' hpq⟩

end Session

end ApiLint
