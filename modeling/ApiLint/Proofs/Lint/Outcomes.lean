import ApiLint.Proofs.FirstOccurrences
import ApiLint.Proofs.Lint.Isolation

/-!
# What comes of loading the documents of a run

Every id that the paths stand for counts once, in the place of its first occurrence: among the documents that are checked if
it loads (`loadedOnce_eq`), and among the failures if not (`failedOnce_eq`).  When the paths are loaded one after another,
each is answered as if it were the only one (`loads_eq`), and what was loaded is there afterwards
(`holds_of_mem_loadedOnce`).
-/

namespace ApiLint

open ApiLint.Graph (Grows Settled)

namespace Graph

theorem length_each {α β : Type} (f : α → Graph → β × Graph) (xs : List α) (g : Graph) :
    (each f xs g).1.length = xs.length := by
  induction xs generalizing g with
  | nil => rfl
  | cons x xs ih => exact congrArg Nat.succ (ih _)

end Graph

namespace Linter

variable {files : FileSystem} {g : Graph} {d : Loaded}

def failure? : Except LoadError Loaded → Option Failure
  | .error e => some ⟨e.document, e.message⟩
  | .ok _ => none

/-- Each document that is loaded counts once, where its id first occurs. -/
theorem loadedOnce_eq {answer : DocumentId → Except LoadError Loaded} {ids : List DocumentId}
    (h : ∀ id ∈ ids, ∀ d, answer id = .ok d → d.id = id) :
    loadedOnce (ids.map answer) = ids.eraseDups.filterMap fun id => (answer id).toOption := by
  induction ids with
  | nil => rfl
  | cons id ids ih =>
    have hrest := ih fun i hi => h i (List.mem_cons_of_mem id hi)
    have hid : ∀ i ∈ ids, ∀ d, (answer i).toOption = some d → d.id = i := by
      intro i hi d hd
      refine h i (List.mem_cons_of_mem id hi) d ?_
      cases hanswer : answer i with
      | error e =>
        rw [hanswer] at hd
        cases hd
      | ok d' =>
        rw [hanswer] at hd
        cases hd
        rfl
    rw [List.map_cons]
    cases hanswer : answer id with
    | error e =>
      rw [loadedOnce, hrest, filterMap_eraseDups_cons_none (by rw [hanswer]; rfl)]
    | ok d =>
      have hd := h id (List.mem_cons_self ..) d hanswer
      rw [loadedOnce, hrest, filterMap_eraseDups_cons (p := fun e => e.id ≠ d.id) fun i hi e he => ?_]
      · rw [hanswer]
        rfl
      · rw [hd, ← hid i hi e he]
        exact decide_eq_true_iff

/-- Each document that cannot be had is reported once, where its id first occurs. -/
theorem failedOnce_eq {answer : DocumentId → Except LoadError Loaded} {ids : List DocumentId}
    (h : ∀ id ∈ ids, ∀ e, answer id = .error e → e.document = id) :
    failedOnce (ids.map answer) = ids.eraseDups.filterMap fun id => failure? (answer id) := by
  induction ids with
  | nil => rfl
  | cons id ids ih =>
    have hrest := ih fun i hi => h i (List.mem_cons_of_mem id hi)
    have hid : ∀ i ∈ id :: ids, ∀ f, failure? (answer i) = some f → f.document = i := by
      intro i hi f hf
      cases hanswer : answer i with
      | error e =>
        rw [hanswer] at hf
        cases hf
        exact h i hi e hanswer
      | ok d =>
        rw [hanswer] at hf
        cases hf
    rw [List.map_cons]
    cases hanswer : answer id with
    | ok d =>
      rw [failedOnce, hrest, filterMap_eraseDups_cons_none (by rw [hanswer]; rfl)]
    | error e =>
      rw [failedOnce, hrest,
        filterMap_eraseDups_cons (p := fun f => f ≠ (⟨e.document, e.message⟩ : Failure)) fun i hi f hf => ?_]
      · rw [hanswer]
        rfl
      · -- a failure tells the id, and the id tells the failure
        rw [decide_eq_true_iff, not_iff_not]
        constructor
        · intro heq
          rw [← hid i (List.mem_cons_of_mem id hi) f hf, heq]
          exact h id (List.mem_cons_self ..) e hanswer
        · rintro rfl
          rw [hanswer] at hf
          exact (Option.some.inj hf).symm

section

variable (answer : DocumentId → Except LoadError Loaded) (ids : List DocumentId)

theorem flatMap_loaded {β : Type} (f : Loaded → List β) :
    (ids.filterMap fun id => (answer id).toOption).flatMap f
      = (ids.filter fun id => (answer id).isOk).flatMap fun id => (answer id).toOption.toList.flatMap f := by
  induction ids with
  | nil => rfl
  | cons id ids ih =>
    rw [List.filterMap_cons, List.filter_cons]
    cases hanswer : answer id with
    | error e => exact ih
    | ok d =>
      rw [show (Except.ok d : Except LoadError Loaded).isOk = true from rfl, if_pos rfl, List.flatMap_cons, hanswer,
        ← ih]
      simp [Except.toOption]

theorem documents_failed (h : ∀ id ∈ ids, ∀ e, answer id = .error e → e.document = id) :
    (ids.filterMap fun id => failure? (answer id)).map Failure.document
      = ids.filter fun id => !(answer id).isOk := by
  induction ids with
  | nil => rfl
  | cons id ids ih =>
    have hrest := ih fun i hi => h i (List.mem_cons_of_mem id hi)
    rw [List.filterMap_cons, List.filter_cons, ← hrest]
    cases hanswer : answer id with
    | ok d => rfl
    | error e => exact congrArg (· :: _) (h id (List.mem_cons_self ..) e hanswer)

theorem exists_of_mem_failed (h : ∀ id ∈ ids, ∀ e, answer id = .error e → e.document = id) {f : Failure}
    (hf : f ∈ ids.filterMap fun id => failure? (answer id)) :
    ∃ e, answer f.document = .error e ∧ f.message = e.message := by
  obtain ⟨id, hid, hf⟩ := List.mem_filterMap.mp hf
  cases hanswer : answer id with
  | ok d =>
    rw [hanswer] at hf
    cases hf
  | error e =>
    rw [hanswer] at hf
    cases hf
    refine ⟨e, ?_, rfl⟩
    rw [h id hid e hanswer]
    exact hanswer

theorem length_loaded_add_length_failed :
    (ids.filterMap fun id => (answer id).toOption).length + (ids.filterMap fun id => failure? (answer id)).length
      = ids.length := by
  induction ids with
  | nil => rfl
  | cons id ids ih =>
    rw [List.filterMap_cons, List.filterMap_cons, List.length_cons, ← ih]
    cases hanswer : answer id with
    | ok d => exact Nat.succ_add _ _
    | error e => exact Nat.add_succ _ _

end

theorem mem_of_mem_loadedOnce {outcomes : List (Except LoadError Loaded)} (h : d ∈ loadedOnce outcomes) :
    .ok d ∈ outcomes := by
  induction outcomes with
  | nil => exact absurd h List.not_mem_nil
  | cons outcome outcomes ih =>
    cases outcome with
    | error e => exact List.mem_cons_of_mem _ (ih h)
    | ok first =>
      rcases List.mem_cons.mp h with rfl | h
      · exact List.mem_cons_self ..
      · exact List.mem_cons_of_mem _ (ih (List.mem_filter.mp h).1)

theorem length_loadedOnce_le (outcomes : List (Except LoadError Loaded)) :
    (loadedOnce outcomes).length ≤ outcomes.length := by
  induction outcomes with
  | nil => exact Nat.le_refl 0
  | cons outcome outcomes ih =>
    cases outcome with
    | error e => exact Nat.le_succ_of_le ih
    | ok d => exact Nat.succ_le_succ ((List.length_filter_le _ _).trans ih)

/-! ### Loading one path after another -/

theorem settled_loads (hg : g.Consistent) (files : FileSystem) (paths : List FilePath) :
    Settled files g (Graph.each (fun p g => g.load files p) paths) :=
  Graph.settled_each hg _ fun p _ => Graph.settled_load hg files p

theorem loads_eq (hg : g.Consistent) (files : FileSystem) (paths : List FilePath) :
    (Graph.each (fun p g => g.load files p) paths g).1 = paths.map fun p => (g.load files p).1 :=
  Graph.each_eq hg _ fun p _ => Graph.settled_load hg files p

theorem get_of_holds (hg : g.Consistent) (hd : g.Holds d) : g.get d.id = .ok d.document :=
  hg.get_of_outcome? hd.document

/-- What was loaded is there afterwards. -/
theorem holds_of_mem_loads (hg : g.Consistent) {paths : List FilePath}
    (h : .ok d ∈ (Graph.each (fun p g => g.load files p) paths g).1) :
    (Graph.each (fun p g => g.load files p) paths g).2.Holds d := by
  induction paths generalizing g with
  | nil => exact absurd h List.not_mem_nil
  | cons p paths ih =>
    have hload := hg.loading files p
    rcases List.mem_cons.mp h with h | h
    · have hrest := (settled_loads hload.consistent files paths).grows _ (.refl files hload.consistent)
      exact (hload.holds d h.symm).extend hrest.toExtends
    · exact ih hload.consistent h

theorem holds_of_mem_loadedOnce (hg : g.Consistent) {paths : List FilePath}
    (h : d ∈ loadedOnce (Graph.each (fun p g => g.load files p) paths g).1) :
    (Graph.each (fun p g => g.load files p) paths g).2.Holds d :=
  holds_of_mem_loads hg (mem_of_mem_loadedOnce h)

end Linter

end ApiLint
