import ApiLint.Proofs.Graph.ReferenceSites
import ApiLint.Proofs.Lint.BuiltInRules
import ApiLint.Proofs.Lint.Outcomes
import ApiLint.Proofs.View.Reach

/-!
# Runs warn of references that designate nothing

A run warns of the errors in the tables of its graph (`Graph.Consistent.mem_unresolved_iff`), of each of them once.  So it
matters which documents get a table.  A document that is asked for gets one, and so do all documents of its view; one that
is only read because a reference names it gets none.

`Linter.Tables` says this of the graph of a run: the documents with tables are those to which edges lead from the
documents that are linted.  It is kept from load to load and from check to check, as long as the rule functions load
nothing themselves (`Linter.warned`).
-/

namespace ApiLint

open Relation (ReflTransGen)
open ApiLint.Graph (Grows Refers)

/-! ### Errors in the tables of a graph -/

namespace Graph

variable {g : Graph}

/-- An entry with an error is that of a document with its table. -/
theorem Consistent.exists_holds_of_entry (hg : g.Consistent) {entry : Entry} (hentry : entry ∈ g.entries)
    {e : ReferenceError} (he : e ∈ (entry.references.map ReferenceTable.unresolved).getD []) :
    ∃ l, g.Holds l ∧ l.id = entry.id ∧ entry.references = some l.references ∧ e ∈ l.references.unresolved := by
  have hfind : g.entry? entry.id = some entry := find?_key hg.nodup hentry
  cases ht : entry.references with
  | none =>
    rw [ht] at he
    cases he
  | some t =>
    rw [ht] at he
    have htable : g.table? entry.id = some t := by rw [table?, hfind, Option.bind_some, ht]
    obtain ⟨d, hd, -⟩ := hg.tables _ _ htable
    have hid := hg.id_eq hd
    refine ⟨⟨d, t⟩, ⟨?_, ?_⟩, hid, rfl, he⟩
    · show g.outcome? d.id = some (.ok d)
      rw [hid, hd]
    · show g.table? d.id = some t
      rw [hid, htable]

/-- The references that designate no node are the errors of the documents that have tables. -/
theorem Consistent.mem_unresolved_iff (hg : g.Consistent) {e : ReferenceError} :
    e ∈ g.unresolved ↔ ∃ l, g.Holds l ∧ e ∈ l.references.unresolved := by
  constructor
  · intro he
    obtain ⟨entry, hentry, he⟩ := List.mem_flatMap.mp he
    obtain ⟨l, hl, -, -, he⟩ := hg.exists_holds_of_entry hentry he
    exact ⟨l, hl, he⟩
  · rintro ⟨l, hl, he⟩
    obtain ⟨entry, hentry, ht⟩ := Option.bind_eq_some_iff.mp hl.references
    refine List.mem_flatMap.mpr ⟨entry, List.mem_of_find?_eq_some hentry, ?_⟩
    rw [ht]
    exact he

/-- **No error is listed twice**: it is told by its document and the place of its reference. -/
theorem Consistent.nodup_unresolved (hg : g.Consistent) :
    (g.unresolved.map fun e => (e.document, e.origin)).Nodup := by
  rw [unresolved, List.map_flatMap, List.nodup_flatMap]
  constructor
  · intro entry hentry
    cases hlist : (entry.references.map ReferenceTable.unresolved).getD [] with
    | nil => exact List.nodup_nil
    | cons e rest =>
      obtain ⟨l, hl, -, ht, -⟩ := hg.exists_holds_of_entry hentry (e := e) (by rw [hlist]; exact List.mem_cons_self ..)
      have honce := (List.nodup_append.mp (hg.partitions hl).1.once).2.1
      rw [ht] at hlist
      rw [← hlist]
      refine List.Nodup.of_map Prod.snd ?_
      rw [List.map_map]
      exact honce
  · have hids : g.entries.Pairwise fun a b => a.id ≠ b.id := List.pairwise_map.mp hg.nodup
    refine hids.imp_of_mem fun {a b} ha hb hne => ?_
    have hdocument : ∀ entry ∈ g.entries, ∀ k ∈ ((entry.references.map ReferenceTable.unresolved).getD []).map
        (fun e => (e.document, e.origin)), k.1 = entry.id := by
      intro entry hentry k hk
      obtain ⟨e, he, rfl⟩ := List.mem_map.mp hk
      obtain ⟨l, hl, hid, -, he⟩ := hg.exists_holds_of_entry hentry he
      exact ((hg.partitions hl).2 e he).trans hid
    intro k hka hkb
    exact hne ((hdocument a ha k hka).symm.trans (hdocument b hb k hkb))

theorem snd_each {α β : Type} {f : α → Graph → β × Graph} {xs : List α} (h : ∀ x ∈ xs, ∀ g, (f x g).2 = g)
    (g : Graph) : (each f xs g).2 = g := by
  have hstep : ∀ x ∈ xs, ∀ k, k = g → (f x k).2 = g := by
    rintro x hx k rfl
    exact h x hx k
  exact (exists_of_mem_each hstep rfl).1

end Graph

def RuleFunction.LoadsNothing (f : RuleFunction) : Prop :=
  ∀ c options n g, (f.call c options n g).2 = g

namespace Linter

variable {l : Linter} {files : FileSystem} {g₀ g : Graph} {paths : List FilePath} {d : Loaded}

/-- Edges lead to `d` from a document that loads at one of the paths, over further documents or none. -/
def Reached (files : FileSystem) (g : Graph) (paths : List FilePath) (d : Loaded) : Prop :=
  ∃ p ∈ paths, ∃ root, (g.load files p).1 = .ok root ∧ ReflTransGen (Refers fun id => (g.load files id).1) root d

/-- What came of `g₀` has tables for documents that are reached from the paths. -/
structure Tables (files : FileSystem) (g₀ : Graph) (paths : List FilePath) (g : Graph) : Prop
    extends Grows files g₀ g where
  reached : ∀ d, g.Holds d → Reached files g₀ paths d

/-! ### Loading and checking -/

/-- Loading a path of the run makes the table of a document that is reached. -/
theorem Tables.load (hg₀ : g₀.Consistent) (h : Tables files g₀ paths g) {p : FilePath} (hp : p ∈ paths) :
    Tables files g₀ paths (g.load files p).2 := by
  have hsettled := Graph.settled_load hg₀ files p
  refine ⟨h.toGrows.trans (hsettled.grows g h.toGrows), fun d hd => ?_⟩
  rcases h.consistent.holds_of_load hd with hd | hd
  · exact h.reached d hd
  · exact ⟨p, hp, d, (hsettled.same g h.toGrows).symm.trans hd, .refl⟩

theorem Tables.loads (hg₀ : g₀.Consistent) (h : Tables files g₀ paths g) (asked : List FilePath)
    (hasked : ∀ p ∈ asked, p ∈ paths) :
    Tables files g₀ paths (Graph.each (fun p g => g.load files p) asked g).2 :=
  (Graph.exists_of_mem_each (fun p hp _ h => h.load hg₀ (hasked p hp)) h).1

/-- Checking a document loads its view, and nothing else. -/
theorem snd_checkLoaded (hrules : ∀ r ∈ l.activeRules, r.function.LoadsNothing) (d : Loaded) (g : Graph) :
    (l.checkLoaded files d g).2 = (View.ofLoaded files g d).2 := by
  show (Graph.each (l.checkRule files (View.ofLoaded files g d).1) l.activeRules (View.ofLoaded files g d).2).2 = _
  refine Graph.snd_each (fun r hr next => ?_) _
  show (Graph.each (l.checkTarget files (View.ofLoaded files g d).1 r) _ next).2 = next
  refine Graph.snd_each (fun target _ next => ?_) _
  exact hrules r hr _ _ _ next

/-- **Checking a document makes the tables of its view.** -/
theorem Tables.checkLoaded (hg₀ : g₀.Consistent) (h : Tables files g₀ paths g)
    (hrules : ∀ r ∈ l.activeRules, r.function.LoadsNothing) (hd : g.Holds d) :
    Tables files g₀ paths (l.checkLoaded files d g).2 ∧
      ∀ m, ReflTransGen (Refers fun id => (g₀.load files id).1) d m → (l.checkLoaded files d g).2.Holds m := by
  have hanswers : (fun id => (g.load files id).1) = fun id => (g₀.load files id).1 := by
    funext id
    exact (Graph.settled_load hg₀ files id).same g h.toGrows
  obtain ⟨hspans, -⟩ := View.spans_ofLoaded h.consistent (.refl files h.consistent) hd fun m hm => .inl hm
  obtain ⟨⟨asked, hloads⟩, -⟩ := View.gathers_ofLoaded h.consistent files hd
  rw [snd_checkLoaded hrules]
  refine ⟨⟨h.toGrows.trans (hloads.grows h.consistent), fun m hm => ?_⟩, fun m hm => ?_⟩
  · rcases hspans.others m hm with hm | hm
    · exact h.reached m hm
    · obtain ⟨p, hp, root, hroot, hleads⟩ := h.reached d hd
      have hrest := (hspans.reached m).mp hm
      rw [hanswers] at hrest
      exact ⟨p, hp, root, hroot, hleads.trans hrest⟩
  · rw [← hanswers] at hm
    exact hspans.held m ((hspans.reached m).mpr hm)

theorem Tables.checks (hg₀ : g₀.Consistent) (h : Tables files g₀ paths g)
    (hrules : ∀ r ∈ l.activeRules, r.function.LoadsNothing) {ds : List Loaded} (hds : ∀ d ∈ ds, g.Holds d) :
    Tables files g₀ paths (Graph.each (l.checkLoaded files) ds g).2 ∧
      g.Extends (Graph.each (l.checkLoaded files) ds g).2 ∧
      ∀ d ∈ ds, ∀ m, ReflTransGen (Refers fun id => (g₀.load files id).1) d m →
        (Graph.each (l.checkLoaded files) ds g).2.Holds m := by
  induction ds generalizing g with
  | nil => exact ⟨h, .refl g, fun d hd => absurd hd List.not_mem_nil⟩
  | cons d ds ih =>
    have hd := hds d (List.mem_cons_self ..)
    obtain ⟨hfirst, hheld⟩ := h.checkLoaded hg₀ hrules hd
    have hgrows : g.Extends (l.checkLoaded files d g).2 := by
      obtain ⟨⟨asked, hloads⟩, -⟩ := View.gathers_ofLoaded h.consistent files hd
      rw [snd_checkLoaded hrules]
      exact (hloads.grows h.consistent).toExtends
    obtain ⟨hlast, hextends, hrest⟩ := ih hfirst fun d' hd' =>
      (hds d' (List.mem_cons_of_mem d hd')).extend hgrows
    refine ⟨hlast, hgrows.trans hextends, fun d' hd' m hm => ?_⟩
    rcases List.mem_cons.mp hd' with rfl | hd'
    · exact (hheld m hm).extend hextends
    · exact hrest d' hd' m hm

/-! ### Runs -/

theorem exists_mem_loadedOnce {outcomes : List (Except LoadError Loaded)} (h : .ok d ∈ outcomes) :
    ∃ d' ∈ loadedOnce outcomes, d'.id = d.id := by
  induction outcomes with
  | nil => exact absurd h List.not_mem_nil
  | cons outcome outcomes ih =>
    cases outcome with
    | error e =>
      rcases List.mem_cons.mp h with h | h
      · cases h
      · exact ih h
    | ok first =>
      by_cases hid : first.id = d.id
      · exact ⟨first, List.mem_cons_self .., hid⟩
      · rcases List.mem_cons.mp h with h | h
        · exact absurd (congrArg Loaded.id (Except.ok.inj h).symm) hid
        · obtain ⟨d', hd', hsame⟩ := ih h
          refine ⟨d', List.mem_cons_of_mem _ (List.mem_filter.mpr ⟨hd', ?_⟩), hsame⟩
          simpa [hsame] using fun h => hid h.symm

/-- **The documents with tables after a run are those that are reached.** -/
theorem tables_run (hg₀ : g₀.Consistent) (files : FileSystem) (hnone : ∀ d, ¬ g₀.Holds d)
    (hrules : ∀ r ∈ l.activeRules, r.function.LoadsNothing) (paths : List FilePath) :
    (l.run files g₀ paths).2.Consistent ∧
      ∀ d, (l.run files g₀ paths).2.Holds d ↔ Reached files g₀ paths d := by
  have hstart : Tables files g₀ paths g₀ := ⟨.refl files hg₀, fun d hd => absurd hd (hnone d)⟩
  have hloads := hstart.loads hg₀ paths fun p hp => hp
  have hheld : ∀ d ∈ loadedOnce (Graph.each (fun p g => g.load files p) paths g₀).1,
      (Graph.each (fun p g => g.load files p) paths g₀).2.Holds d :=
    fun d hd => holds_of_mem_loadedOnce hg₀ hd
  obtain ⟨htables, -, hchecked⟩ := hloads.checks hg₀ hrules hheld
  refine ⟨htables.consistent, fun d => ⟨htables.reached d, ?_⟩⟩
  rintro ⟨p, hp, root, hroot, hleads⟩
  have hmem : .ok root ∈ (Graph.each (fun p g => g.load files p) paths g₀).1 := by
    rw [loads_eq hg₀]
    exact List.mem_map.mpr ⟨p, hp, hroot⟩
  obtain ⟨root', hroot', hid⟩ := exists_mem_loadedOnce hmem
  -- both were loaded under one id
  obtain rfl := (hheld root' hroot').eq_of_id (holds_of_mem_loads hg₀ hmem) hid
  exact hchecked root' hroot' d hleads

/-- What a run warns of. -/
structure Warned (files : FileSystem) (g : Graph) (paths : List FilePath) (warnings : List ReferenceError) : Prop where
  /-- The references that designate no node, of all documents that are reached. -/
  mem_iff : ∀ e, e ∈ warnings ↔ ∃ d, Reached files g paths d ∧ e ∈ d.references.unresolved
  /-- Of no reference is warned twice. -/
  nodup : (warnings.map fun e => (e.document, e.origin)).Nodup
  /-- A document that is not reached adds none, even if it was read. -/
  document : ∀ e ∈ warnings, ∃ d, Reached files g paths d ∧ d.id = e.document

/-- **A run warns of the references of all documents that are reached, if they designate no node.** -/
theorem warned {base : FilePath} (hbase : base.isAbsolute = true) (files : FileSystem)
    (hrules : ∀ r ∈ l.activeRules, r.function.LoadsNothing) (paths : List FilePath) :
    Warned files (.empty base) paths (l.run files (.empty base) paths).1.warnings := by
  have hnone : ∀ d, ¬ (Graph.empty base).Holds d := by
    intro d hd
    cases hd.document
  obtain ⟨hg, hheld⟩ := tables_run (Graph.consistent_empty hbase) files hnone hrules paths
  have hmem : ∀ e, e ∈ (l.run files (.empty base) paths).1.warnings ↔
      ∃ d, Reached files (.empty base) paths d ∧ e ∈ d.references.unresolved := by
    intro e
    show e ∈ (l.run files (.empty base) paths).2.unresolved ↔ _
    rw [hg.mem_unresolved_iff]
    exact exists_congr fun d => and_congr_left' (hheld d)
  refine ⟨hmem, hg.nodup_unresolved, fun e he => ?_⟩
  obtain ⟨d, hd, he⟩ := (hmem e).mp he
  exact ⟨d, hd, ((hg.partitions ((hheld d).mpr hd)).2 e he).symm⟩

/-- One document is linted under two paths, and shares a further document with another.  It also names a node that
`b.json` does not have, which is read for that, and which would have an error of its own. -/
theorem warned_of_missing_target : ∃ l : Linter, ∃ files : FileSystem, ∃ paths : List FilePath,
    (⟨"/"⟩ : FilePath).isAbsolute = true ∧ (∀ r ∈ l.activeRules, r.function.LoadsNothing) ∧
      paths.map (FilePath.canonical ⟨"/"⟩) = [⟨"/a.json"⟩, ⟨"/d.json"⟩, ⟨"/a.json"⟩] ∧
      (["/a.json", "/b.json", "/c.json", "/d.json"].map fun p => ((Graph.empty ⟨"/"⟩).load files ⟨p⟩).1.toOption.map
        fun d => (d.references.edges.map fun e => e.target.document, d.references.unresolved.length))
        = [some ([⟨"/c.json"⟩], 1), some ([], 1), some ([], 1), some ([⟨"/c.json"⟩], 0)] ∧
      Warned files (.empty ⟨"/"⟩) paths (l.run files (.empty ⟨"/"⟩) paths).1.warnings := by
  let files : FileSystem := ⟨[
    (⟨"/a.json"⟩, "\x7b\"x\":\x7b\"$ref\":\"b.json#/missing\"\x7d,\"y\":\x7b\"$ref\":\"c.json\"\x7d\x7d"),
    (⟨"/b.json"⟩, "\x7b\"z\":\x7b\"$ref\":\"#/none\"\x7d\x7d"),
    (⟨"/c.json"⟩, "\x7b\"w\":\x7b\"$ref\":\"#/none\"\x7d\x7d"),
    (⟨"/d.json"⟩, "\x7b\"y\":\x7b\"$ref\":\"c.json#/w\"\x7d\x7d")], fun _ => "no such file"⟩
  let l : Linter := ⟨⟨[⟨"", "patch", "", .warning, "", .all, false, [], none, .null,
    .streaming PatchBodyParameters.check⟩]⟩, .default⟩
  let paths : List FilePath := [⟨"a.json"⟩, ⟨"d.json"⟩, ⟨"./a.json"⟩]
  have hbase : (⟨"/"⟩ : FilePath).isAbsolute = true := by decide +kernel
  have hrules : ∀ r ∈ l.activeRules, r.function.LoadsNothing := by
    intro r hr c options n g
    obtain rfl := List.mem_singleton.mp (List.mem_filter.mp hr).1
    rfl
  exact ⟨l, files, paths, hbase, hrules, by decide +kernel, by decide +kernel, warned hbase files hrules paths⟩

end Linter

end ApiLint
