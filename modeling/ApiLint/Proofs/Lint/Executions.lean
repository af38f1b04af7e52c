import ApiLint.Proofs.Lint.Outcomes
import ApiLint.Proofs.Work.Alone
import ApiLint.Proofs.Work.Pools

/-!
# Checks among others

A call of a rule function is steady if it yields the same whatever others load meanwhile (`Calls.Steady`).  Then what is
found in a document does not depend on who else is at work (`Linter.gives_documentWork`), and a run ends in one way only,
whoever does the work and in whatever order (`Linter.inevitable_reported`).  If one worker does all of it, then what comes
of the run is `Linter.run` (`Linter.steps_alone_iff`).
-/

namespace ApiLint

open ApiLint.Graph (Grows Settled Yields)
open Relation (ReflTransGen)

variable {files : FileSystem} {g₀ g : Graph} {calls : Calls}

namespace Calls

/-- Whatever others load since `g`, a call comes to what the function yields in `g`. -/
def Steady (calls : Calls) (files : FileSystem) (g : Graph) (f : RuleFunction) : Prop :=
  ∀ (c : Context) (options : Value) (n : Node), c.files = files →
    (calls.work f c options n).Gives files g (f.call c options n g).1

theorem Steady.function {f : RuleFunction} (h : calls.Steady files g f) : f.Steady files g := by
  intro c options n hc
  have hcall : ∀ k, Grows files g k → (f.call c options n k).1 = (f.call c options n g).1 ∧
      Grows files k (f.call c options n k).2 := by
    intro k hk
    obtain ⟨items, last, halone, hgrows, rfl⟩ := (h c options n hc).alone hk
    rw [calls.alone, Option.some.injEq, Prod.mk.injEq, Shared.mk.injEq] at halone
    obtain ⟨hitems, rfl, -⟩ := halone
    exact ⟨hitems, hgrows⟩
  exact ⟨fun k hk => (hcall k hk).2, fun k hk => (hcall k hk).1⟩

theorem steady_inOne {f : RuleFunction} (h : f.Steady files g) : inOne.Steady files g f := fun c options n hc =>
  .ask (fun k hk => (h c options n hc).grows k hk) fun k _ hk _ => (h c options n hc).same k hk

end Calls

namespace Linter

variable {l : Linter} {v : View} {r : Rule} {d : Loaded}

/-! ### Checks -/

theorem gives_targetWork (hg : Grows files g₀ g) (hr : calls.Steady files g₀ r.function) (l : Linter) (v : View)
    (target : Query.Match) :
    (l.targetWork files calls v r target).Gives files g
      (l.diagnosticsOf v r target.path (l.invoke files v r target g₀).1) :=
  .bind hg.consistent ((hr _ _ _ rfl).of_grows hg) fun h _ => .pure files h _

theorem gives_ruleWork (hg : Grows files g₀ g) (hr : calls.Steady files g₀ r.function) (l : Linter) (v : View) :
    (l.ruleWork files calls v r).Gives files g (l.ruleDiagnostics files v g₀ r) :=
  .bind hg.consistent (.each hg.consistent fun target _ => gives_targetWork hg hr l v target) fun h _ =>
    .pure files h _

/-- **What is found in a document does not depend on what others load meanwhile.** -/
theorem gives_documentWork (hg₀ : g₀.Consistent) (hg : Grows files g₀ g) (hd : g₀.Yields files d)
    (hrules : ∀ r ∈ l.rules.rules, calls.Steady files g₀ r.function) :
    (l.documentWork files calls d).Gives files g (l.checkLoaded files d g₀).1 := by
  have hactive : ∀ r ∈ l.activeRules, calls.Steady files g₀ r.function := fun r hr => hrules r (List.mem_filter.mp hr).1
  rw [checkLoaded_eq hg₀ hd fun r hr => (hrules r hr).function, List.flatMap_def]
  refine .bind hg.consistent (Work.gives_view hg₀ hg hd) fun h hh => ?_
  exact .bind hh.consistent (.each hh.consistent fun r hr => gives_ruleWork (hg.trans hh) (hactive r hr) l _)
    fun k _ => .pure files k _

theorem gives_checkWork (hg₀ : g₀.Consistent) (hg : Grows files g₀ g)
    (hrules : ∀ r ∈ l.rules.rules, calls.Steady files g₀ r.function) (p : FilePath) :
    (l.checkWork files calls p).Gives files g ((g₀.load files p).1.map fun d => (l.checkLoaded files d g₀).1) := by
  refine .bind hg.consistent (Work.gives_load hg₀ hg p) fun h hh => ?_
  cases hload : (g₀.load files p).1 with
  | error e => exact .pure files h _
  | ok d =>
    have hd := Graph.yields_of_load hg₀ hload
    exact .bind hh.consistent (gives_documentWork hg₀ (hg.trans hh) hd hrules) fun k _ => .pure files k _

theorem does_targetWork (l : Linter) (calls : Calls) (v : View) (r : Rule) (target : Query.Match) :
    (l.targetWork files calls v r target).Does [] (l.checkTarget files v r target) :=
  .bind (fun g => calls.alone r.function _ _ _ g) fun _ => .pure [] _

theorem does_ruleWork (l : Linter) (calls : Calls) (v : View) (r : Rule) :
    (l.ruleWork files calls v r).Does [] (l.checkRule files v r) :=
  .bind (.each (l.does_targetWork calls v r) _) fun _ => .pure [] _

theorem does_documentWork (l : Linter) (calls : Calls) (d : Loaded) :
    (l.documentWork files calls d).Does [] (l.checkLoaded files d) :=
  .bind (Work.does_view files d) fun v => .bind (.each (l.does_ruleWork calls v) _) fun _ => .pure [] _

theorem does_checkWork (l : Linter) (calls : Calls) (p : FilePath) :
    (l.checkWork files calls p).Does [] fun g => l.check files g p := by
  intro g
  rw [checkWork, Work.alone_bind, Work.does_load files p g, Option.bind_some]
  dsimp only
  rw [check]
  cases g.load files p with
  | mk answer next =>
    cases answer with
    | error e => rfl
    | ok d =>
      dsimp only
      rw [Work.alone_bind, l.does_documentWork calls d next]
      rfl

/-! ### Runs -/

variable {pool : Pool} {paths : List FilePath} {s : Shared}

theorem eq_of_step_loaded {results : List (List (Except LoadError Loaded))} {e : Stage × Shared}
    (h : l.Step files calls pool (.loading (results.map .finished), s) e) :
    e = (.checking results.flatten (pool.jobs (l.documentWork files calls) (loadedOnce results.flatten)), s) := by
  generalize hjobs : results.map Job.finished = jobs at h
  cases h with
  | load hstep => exact absurd (hjobs ▸ hstep) (Pool.not_step_finished results s _)
  | loaded => rw [Job.map_finished_injective hjobs]

theorem eq_of_step_checked {outcomes : List (Except LoadError Loaded)} {results : List (List (List Diagnostic))}
    {e : Stage × Shared} (h : l.Step files calls pool (.checking outcomes (results.map .finished), s) e) :
    e = (.reported (reportOf s.graph outcomes results.flatten), s) := by
  generalize hjobs : results.map Job.finished = jobs at h
  cases h with
  | check hstep => exact absurd (hjobs ▸ hstep) (Pool.not_step_finished results s _)
  | checked => rw [Job.map_finished_injective hjobs]

theorem not_step_reported {c : Stage × Shared} {report : Report} (h : c.1 = .reported report) (e : Stage × Shared) :
    ¬l.Step files calls pool c e := by
  obtain ⟨stage, s⟩ := c
  obtain rfl : stage = .reported report := h
  nofun

/-- A run reports once its documents are loaded and checked. -/
theorem inevitable_of_jobs {P : List (Except LoadError Loaded) → Shared → Prop}
    {Q : List (Except LoadError Loaded) → List (List Diagnostic) → Shared → Prop}
    (hload : Inevitable pool.Step (fun c => ∃ results : List (List (Except LoadError Loaded)),
      c.1 = results.map .finished ∧ P results.flatten c.2) (pool.jobs (Work.load files) paths, s))
    (hcheck : ∀ outcomes s', P outcomes s' → Inevitable pool.Step (fun c => ∃ results : List (List (List Diagnostic)),
      c.1 = results.map .finished ∧ Q outcomes results.flatten c.2)
      (pool.jobs (l.documentWork files calls) (loadedOnce outcomes), s')) :
    Inevitable (l.Step files calls pool) (fun c => ∃ outcomes found, Q outcomes found c.2 ∧
      c.1 = .reported (reportOf c.2.graph outcomes found)) (begin files pool paths, s) := by
  -- first the jobs that load, then those that check
  refine hload.lift (fun c => (Stage.loading c.1, c.2)) (fun _ _ => .load) ?_ ?_
  · rintro ⟨jobs, s₁⟩ d e hd he
    cases he with
    | @load _ jobs' _ s' hstep => exact ⟨(jobs', s'), rfl, hstep⟩
    | @loaded results => exact absurd hd (Pool.not_step_finished results s₁ d)
  rintro ⟨_, s₁⟩ ⟨results, rfl, hresults⟩
  refine .later ⟨_, .loaded⟩ fun e he => ?_
  rw [eq_of_step_loaded he]
  refine (hcheck _ s₁ hresults).lift (fun c => (Stage.checking results.flatten c.1, c.2)) (fun _ _ => .check) ?_ ?_
  · rintro ⟨jobs, s₂⟩ d e hd he
    cases he with
    | @check _ _ jobs' _ s' hstep => exact ⟨(jobs', s'), rfl, hstep⟩
    | @checked _ results => exact absurd hd (Pool.not_step_finished results s₂ d)
  rintro ⟨_, s₂⟩ ⟨found, rfl, hfound⟩
  refine .later ⟨_, .checked⟩ fun e he => ?_
  rw [eq_of_step_checked he]
  exact .now ⟨results.flatten, found.flatten, hfound, rfl⟩

structure Loads (files : FileSystem) (g₀ g : Graph) (paths : List FilePath)
    (outcomes : List (Except LoadError Loaded)) (s : Shared) : Prop where
  answers : outcomes = paths.map fun p => (g₀.load files p).1
  grows : Grows files g s.graph
  idle : s.resolving = []
  held : ∀ d, .ok d ∈ outcomes → s.graph.Holds d

theorem loads_of_forall₂ {outcomes : List (Except LoadError Loaded)} {s : Shared} (hgrows : Grows files g s.graph)
    (hidle : s.resolving = []) (h : List.Forall₂ (fun p answer => answer = (g₀.load files p).1 ∧
      ∀ d, answer = .ok d → s.graph.Holds d) paths outcomes) : Loads files g₀ g paths outcomes s := by
  induction h with
  | nil => exact ⟨rfl, hgrows, hidle, fun d hd => absurd hd List.not_mem_nil⟩
  | cons hanswer _ ih =>
    refine ⟨by rw [List.map_cons, hanswer.1, ih.answers], hgrows, hidle, fun d hd => ?_⟩
    rcases List.mem_cons.mp hd with hd | hd
    · exact hanswer.2 d hd.symm
    · exact ih.held d hd

theorem inevitable_loaded (hg₀ : g₀.Consistent) (hg : Grows files g₀ g) (hsize : 0 < pool.size)
    (paths : List FilePath) :
    Inevitable pool.Step (fun c => ∃ results : List (List (Except LoadError Loaded)), c.1 = results.map .finished ∧
      Loads files g₀ g paths results.flatten c.2) (pool.jobs (Work.load files) paths, ⟨g, []⟩) := by
  refine (Pool.inevitable_jobs hsize hg.consistent fun p _ => Work.ensures_load hg₀ hg p).mono ?_
  rintro c ⟨hgrows, hidle, results, hjobs, hanswers⟩
  exact ⟨results, hjobs, loads_of_forall₂ hgrows hidle hanswers⟩

theorem inevitable_checked (hg₀ : g₀.Consistent) (hg : Grows files g₀ g) (hsize : 0 < pool.size)
    (hrules : ∀ r ∈ l.rules.rules, calls.Steady files g₀ r.function) {documents : List Loaded}
    (hyields : ∀ d ∈ documents, g₀.Yields files d) :
    Inevitable pool.Step (fun c => ∃ results : List (List (List Diagnostic)), c.1 = results.map .finished ∧
      results.flatten = documents.map (fun d => (l.checkLoaded files d g₀).1) ∧ Grows files g c.2.graph ∧
      c.2.resolving = []) (pool.jobs (l.documentWork files calls) documents, ⟨g, []⟩) := by
  refine (Pool.inevitable_jobs hsize hg.consistent fun d hd => gives_documentWork hg₀ hg (hyields d hd) hrules).mono ?_
  rintro c ⟨hgrows, hidle, results, hjobs, hfound⟩
  refine ⟨results, hjobs, ?_, hgrows, hidle⟩
  have hsame := List.forall₂_map_left_iff.mpr (hfound.imp fun _ _ h => h.symm)
  rwa [List.forall₂_eq_eq_eq, eq_comm] at hsame

/-- What is reported when every document is checked as in `g₀`. -/
def reportSince (l : Linter) (files : FileSystem) (g₀ last : Graph) (outcomes : List (Except LoadError Loaded)) : Report :=
  reportOf last outcomes ((loadedOnce outcomes).map fun d => (l.checkLoaded files d g₀).1)

/-- **A run ends, and in one way only**, whoever does the work and in whatever order. -/
theorem inevitable_reported (hg₀ : g₀.Consistent) (hg : Grows files g₀ g) (hsize : 0 < pool.size)
    (hrules : ∀ r ∈ l.rules.rules, calls.Steady files g₀ r.function) (paths : List FilePath) :
    Inevitable (l.Step files calls pool) (fun c => ∃ outcomes, Loads files g₀ g paths outcomes c.2 ∧
      c.1 = .reported (l.reportSince files g₀ c.2.graph outcomes)) (begin files pool paths, ⟨g, []⟩) := by
  refine (inevitable_of_jobs (inevitable_loaded hg₀ hg hsize paths) (Q := fun outcomes found s =>
    Loads files g₀ g paths outcomes s ∧ found = (loadedOnce outcomes).map fun d => (l.checkLoaded files d g₀).1)
    ?_).mono ?_
  · rintro outcomes ⟨next, resolving⟩ ⟨houtcomes, hgrows, rfl, hheld⟩
    have hyields : ∀ d ∈ loadedOnce outcomes, g₀.Yields files d := by
      intro d hd
      obtain ⟨p, -, hp⟩ := List.mem_map.mp (houtcomes ▸ mem_of_mem_loadedOnce hd)
      exact Graph.yields_of_load hg₀ hp
    refine (inevitable_checked hg₀ (hg.trans hgrows) hsize hrules hyields).mono ?_
    rintro c ⟨results, hjobs, hfound, hgrown, hidle⟩
    exact ⟨results, hjobs, ⟨houtcomes, hgrows.trans hgrown, hidle, fun d hd => (hheld d hd).extend hgrown.toExtends⟩,
      hfound⟩
  · rintro c ⟨outcomes, found, ⟨hloads, rfl⟩, hreport⟩
    exact ⟨outcomes, hloads, hreport⟩

/-! ### A single worker -/

theorem inevitable_jobs_alone {α β : Type} {f : α → Work β} {xs : List α} {m : Graph → List β × Graph}
    (hsize : 0 < pool.size) (hxs : pool = .caller ∨ xs.length ≤ 1) (hdoes : (Work.each f xs).Does [] m) (g : Graph) :
    Inevitable pool.Step (fun c => ∃ results : List (List β), c.1 = results.map .finished ∧
      results.flatten = (m g).1 ∧ c.2 = ⟨(m g).2, []⟩) (pool.jobs f xs, ⟨g, []⟩) := by
  rw [Pool.jobs, Pool.parts_of_alone hxs]
  refine (Pool.inevitable_alone hsize (hdoes g)).mono ?_
  rintro _ rfl
  exact ⟨[(m g).1], rfl, List.flatten_singleton, rfl⟩

/-- **A single worker does what `run` does**, and nobody but the caller runs over a single path. -/
theorem steps_alone_iff (hsize : 0 < pool.size) (hpaths : pool = .caller ∨ paths.length ≤ 1) {report : Report} :
    ReflTransGen (l.Step files calls pool) (begin files pool paths, ⟨g, []⟩) (.reported report, s) ↔
      report = (l.run files g paths).1 ∧ s = ⟨(l.run files g paths).2, []⟩ := by
  have hrun : Inevitable (l.Step files calls pool)
      (· = (.reported (l.run files g paths).1, ⟨(l.run files g paths).2, []⟩)) (begin files pool paths, ⟨g, []⟩) := by
    let loads := Graph.each (fun p g => g.load files p) paths g
    let checks := Graph.each (l.checkLoaded files) (loadedOnce loads.1) loads.2
    have hload := inevitable_jobs_alone hsize hpaths (.each (Work.does_load files) paths) g
    refine Inevitable.mono (inevitable_of_jobs
      (P := fun outcomes s => outcomes = loads.1 ∧ s = ⟨loads.2, []⟩)
      (Q := fun outcomes found s => outcomes = loads.1 ∧ found = checks.1 ∧ s = ⟨checks.2, []⟩) hload ?_) ?_
    · rintro _ _ ⟨rfl, rfl⟩
      have hlength : pool = .caller ∨ (loadedOnce loads.1).length ≤ 1 :=
        hpaths.imp_right (((length_loadedOnce_le _).trans_eq (Graph.length_each ..)).trans)
      refine (inevitable_jobs_alone hsize hlength (.each (l.does_documentWork calls) _) loads.2).mono ?_
      rintro c ⟨results, hjobs, hfound⟩
      exact ⟨results, hjobs, rfl, hfound⟩
    · rintro ⟨stage, s⟩ ⟨_, _, ⟨rfl, rfl, hs⟩, hreport⟩
      obtain rfl : s = ⟨checks.2, []⟩ := hs
      exact Prod.ext hreport rfl
  constructor
  · intro hsteps
    have hsame := hrun.of_steps (fun c hc => not_step_reported (congrArg Prod.fst hc)) hsteps (not_step_reported rfl)
    rw [Prod.mk.injEq, Stage.reported.injEq] at hsame
    exact hsame
  · rintro ⟨rfl, rfl⟩
    obtain ⟨_, hsteps, rfl⟩ := hrun.exists_steps
    exact hsteps

end Linter

end ApiLint
