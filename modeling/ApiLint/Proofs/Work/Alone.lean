import ApiLint.Execution
import ApiLint.Proofs.View.Answers

/-!
# Work that nobody interferes with

Alone, work does what the operations on graphs do that it is cut from (`Work.Does`): it never waits, answers the same and
leaves the same graph behind.
-/

namespace ApiLint

namespace Work

variable {α β : Type} {files : FileSystem} {resolving : List DocumentId} {w : Work α} {m : Graph → α × Graph}

theorem alone_bind (w : Work α) (k : α → Work β) (s : Shared) :
    (w >>= k).alone s = (w.alone s).bind fun r => (k r.1).alone r.2 := by
  induction w generalizing s with
  | done a => rfl
  | act ready effect next ih =>
    show (if ready s = true then ((next s).bind k).alone (effect s) else none)
      = (if ready s = true then (next s).alone (effect s) else none).bind _
    by_cases hready : ready s = true
    · rw [if_pos hready, if_pos hready]
      exact ih s (effect s)
    · rw [if_neg hready, if_neg hready, Option.bind_none]

/-- Alone the work does what `m` does, while nothing else than `resolving` is being resolved. -/
def Does (resolving : List DocumentId) (m : Graph → α × Graph) (w : Work α) : Prop :=
  ∀ g, w.alone ⟨g, resolving⟩ = some ((m g).1, ⟨(m g).2, resolving⟩)

namespace Does

theorem pure (resolving : List DocumentId) (a : α) : (Pure.pure a : Work α).Does resolving fun g => (a, g) :=
  fun _ => rfl

theorem ask (resolving : List DocumentId) (m : Graph → α × Graph) : (Work.ask m).Does resolving m :=
  fun _ => rfl

theorem bind {k : α → Work β} {m' : α → Graph → β × Graph} (hw : w.Does resolving m)
    (hk : ∀ a, (k a).Does resolving (m' a)) : (w >>= k).Does resolving fun g => m' (m g).1 (m g).2 := by
  intro g
  rw [alone_bind, hw g, Option.bind_some]
  exact hk _ _

theorem each {f : α → Work β} {m : α → Graph → β × Graph} (h : ∀ x, (f x).Does resolving (m x)) (xs : List α) :
    (Work.each f xs).Does resolving (Graph.each m xs) := by
  induction xs with
  | nil => exact .pure resolving []
  | cons x xs ih => exact .bind (h x) fun y => .bind ih fun ys => .pure resolving (y :: ys)

end Does

/-! ### Loading documents -/

theorem does_resolveAll (files : FileSystem) (d : Document) (sites : List (Path × String)) :
    (resolveAll files d sites).Does resolving (Graph.resolveAll files d sites) := by
  induction sites with
  | nil => exact .pure resolving _
  | cons s sites ih =>
    intro g
    rw [resolveAll, alone_bind, Does.ask resolving (fun g => g.locate files d s.1 s.2) g, Option.bind_some]
    dsimp only
    rw [alone_bind, ih _, Option.bind_some, Graph.resolveAll_snd_cons]
    exact congrArg (fun table => some (table, _)) (Graph.resolveAll_fst_cons files d s sites g).symm

/-- References that nobody has resolved yet are resolved and recorded. -/
theorem alone_references_of_none {d : Document} {g : Graph} (h : g.table? d.id = none) :
    (references files d).alone ⟨g, []⟩ = some ((Graph.resolveAll files d d.value.references g).1,
      ⟨(Graph.resolveAll files d d.value.references g).2.setReferences d.id
        (Graph.resolveAll files d d.value.references g).1, []⟩) := by
  have hnone : (Shared.mk g []).references? d.id = none := h
  have hbegun : (references files d).alone ⟨g, []⟩
      = (resolveAll files d d.value.references >>= record d.id).alone ⟨g, [d.id]⟩ := by
    rw [references, alone, hnone]
    rfl
  have hended : [d.id].filter (· ≠ d.id) = [] := List.filter_eq_nil_iff.mpr fun i hi => by
    rw [List.mem_singleton.mp hi, decide_eq_false (not_not_intro rfl)]
    exact Bool.false_ne_true
  rw [hbegun, alone_bind, does_resolveAll files d d.value.references g, Option.bind_some, record, alone, if_pos rfl,
    alone, hended]

theorem alone_references_of_some {d : Document} {g : Graph} {table : ReferenceTable} (h : g.table? d.id = some table) :
    (references files d).alone ⟨g, []⟩ = some (table, ⟨g, []⟩) := by
  have hsome : (Shared.mk g []).references? d.id = some table := h
  rw [references, alone, hsome]
  rfl

theorem does_load (files : FileSystem) (p : FilePath) : (load files p).Does [] fun g => g.load files p := by
  intro g
  rw [load, alone_bind, Does.ask [] (fun g => g.loadParsed files p) g, Option.bind_some]
  dsimp only
  rw [Graph.load_eq]
  cases (g.loadParsed files p).1 with
  | error e => rfl
  | ok d =>
    dsimp only
    rw [alone_bind]
    cases htable : (g.loadParsed files p).2.table? d.id with
    | none =>
      rw [alone_references_of_none htable]
      rfl
    | some table =>
      rw [alone_references_of_some htable]
      rfl

/-! ### Making views -/

theorem does_loadTargets (files : FileSystem) (present : List DocumentId) (edges : List Edge) :
    (loadTargets files present edges).Does [] (View.loadTargets files present edges) := by
  induction edges with
  | nil => exact .pure [] []
  | cons e edges ih =>
    intro g
    by_cases hpresent : e.target.document ∈ present
    · rw [loadTargets, if_pos hpresent, View.loadTargets, if_pos hpresent]
      exact ih g
    · rw [loadTargets, if_neg hpresent, View.loadTargets_cons hpresent, alone_bind,
        does_load files e.target.document g, Option.bind_some]
      dsimp only
      rw [alone_bind, ih _, Option.bind_some]
      cases (g.load files e.target.document).1 <;> rfl

theorem does_gather (files : FileSystem) (room : Nat) (gathered pending : List Loaded) :
    (gather files room gathered pending).Does [] (View.gather files room gathered pending) := by
  intro g
  cases pending with
  | nil =>
    rw [gather.eq_def, View.gather.eq_def]
    rfl
  | cons d pending =>
    rw [gather.eq_def, View.gather.eq_def]
    dsimp only
    by_cases hd : d.id ∈ gathered.map Loaded.id
    · rw [if_pos hd, if_pos hd]
      exact does_gather files room gathered pending g
    · rw [if_neg hd, if_neg hd]
      cases room with
      | zero => rfl
      | succ room =>
        dsimp only
        rw [alone_bind, does_loadTargets files _ _ g, Option.bind_some]
        exact does_gather files room _ _ _
termination_by (room, pending.length)

theorem does_view (files : FileSystem) (root : Loaded) : (view files root).Does [] fun g => View.ofLoaded files g root := by
  intro g
  rw [view, alone_bind, Does.ask [] (fun g : Graph => (files.files.length + g.entries.length, g)) g, Option.bind_some,
    alone_bind, does_loadTargets files _ _ g, Option.bind_some, alone_bind, does_gather files _ _ _ _, Option.bind_some]
  rfl

end Work

end ApiLint
