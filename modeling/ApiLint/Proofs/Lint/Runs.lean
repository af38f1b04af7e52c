import ApiLint.Proofs.Lint.BuiltInRules
import ApiLint.Proofs.Lint.Executions

/-!
# Runs are put together from single documents

A run loads documents, checks each once and traces what it finds back to the texts.  `Linter.Composed` says that this
is what runs on single documents give, one after another: every id that the paths stand for counts once, in the place
of its first occurrence, and what is found in a document is what is found by a linter that was asked for nothing else
(`map_ofDiagnostic_eq`).  So neither the other documents of a run, nor the workers that check them at the same time, nor
earlier calls leave a trace in it (`Linter.run_composed`).
-/

namespace ApiLint

open ApiLint.Graph (Grows Settled Yields)
open Relation (ReflTransGen)

namespace Linter

variable {files : FileSystem} {g₀ g : Graph} {l : Linter} {d : Loaded} {calls : Calls} {pool : Pool}
  {paths : List FilePath} {s s' : Shared}

/-! ### Tracing back -/

theorem document_of_mem_checkLoaded (hg : g.Consistent) (hd : g.Yields files d)
    (hrules : ∀ r ∈ l.rules.rules, r.function.Steady files g) {x : Diagnostic}
    (hx : x ∈ (l.checkLoaded files d g).1) : x.document = d.id := by
  rw [checkLoaded_eq hg hd hrules] at hx
  obtain ⟨r, -, hx⟩ := List.mem_flatMap.mp hx
  obtain ⟨target, -, hx⟩ := List.mem_flatMap.mp hx
  rcases List.mem_append.mp hx with hx | hx
  · obtain ⟨f, -, rfl⟩ := List.mem_map.mp hx
    rfl
  · obtain ⟨fault, -, rfl⟩ := Option.map_eq_some_iff.mp (Option.mem_toList.mp hx)
    rfl

/-- Where a diagnostic was written depends on the text of its document alone. -/
theorem ofDiagnostic_congr {h : Graph} {x : Diagnostic} (hget : g.get x.document = h.get x.document) :
    Record.ofDiagnostic g x = Record.ofDiagnostic h x := by
  rw [Record.ofDiagnostic, Record.ofDiagnostic, Record.spanOf, Record.spanOf, hget]

/-- What is found in a document, traced back in a graph that has just loaded it. -/
def recordsOf (l : Linter) (files : FileSystem) (g : Graph) (d : Loaded) : List Record :=
  (l.checkLoaded files d g).1.map (.ofDiagnostic (g.load files d.id).2)

/-- What is found in a document is traced back alike in every graph that has it. -/
theorem map_ofDiagnostic_eq (hg₀ : g₀.Consistent) (hg : Grows files g₀ g) (hyields : g₀.Yields files d)
    (hheld : g.Holds d) (hrules : ∀ r ∈ l.rules.rules, r.function.Steady files g₀) :
    (l.checkLoaded files d g₀).1.map (.ofDiagnostic g) = l.recordsOf files g₀ d := by
  have hload := hg₀.loading files d.id
  refine List.map_congr_left fun x hx => ofDiagnostic_congr ?_
  rw [document_of_mem_checkLoaded hg₀ hyields hrules hx, get_of_holds hg.consistent hheld,
    get_of_holds hload.consistent (hload.holds d hyields)]

/-- What is reported was found in the documents that were loaded, in each of them on its own. -/
theorem records_reportSince (hg₀ : g₀.Consistent) (hg : Grows files g₀ g)
    (hrules : ∀ r ∈ l.rules.rules, r.function.Steady files g₀) {outcomes : List (Except LoadError Loaded)}
    (h : Loads files g₀ g paths outcomes s) :
    (l.reportSince files g₀ s.graph outcomes).records = (loadedOnce outcomes).flatMap (l.recordsOf files g₀) := by
  show (((loadedOnce outcomes).map fun d => (l.checkLoaded files d g₀).1).flatten).map _ = _
  rw [← List.flatMap_def, List.map_flatMap]
  refine List.flatMap_congr fun d hd => ?_
  have hmem := mem_of_mem_loadedOnce hd
  obtain ⟨p, -, hp⟩ := List.mem_map.mp (h.answers ▸ hmem)
  exact map_ofDiagnostic_eq hg₀ (hg.trans h.grows) (Graph.yields_of_load hg₀ hp) (h.held d hmem) hrules

/-! ### Earlier calls -/

theorem size_pos_of_mayHave (h : l.MayHave pool) : 0 < pool.size := by
  obtain ⟨available, hmade⟩ := h
  cases hmade with
  | caller => exact Nat.one_pos
  | workers hlt => exact Nat.zero_lt_of_lt hlt

theorem mayHave_caller (l : Linter) : l.MayHave .caller :=
  ⟨0, .caller⟩

theorem loads_of_runs (hg₀ : g₀.Consistent) (hs : Grows files g₀ s.graph) (hidle : s.resolving = [])
    (hrules : ∀ r ∈ l.rules.rules, calls.Steady files g₀ r.function) {report : Report}
    (h : l.Runs files calls s paths report s') :
    ∃ outcomes, Loads files g₀ s.graph paths outcomes s' ∧ report = l.reportSince files g₀ s'.graph outcomes := by
  obtain ⟨pool, hpool, hsteps⟩ := h
  obtain ⟨g, resolving⟩ := s
  obtain rfl : resolving = [] := hidle
  obtain ⟨outcomes, hloads, hreport⟩ := (inevitable_reported hg₀ hs (size_pos_of_mayHave hpool) hrules paths).of_steps
    (fun c ⟨_, _, hc⟩ => not_step_reported hc) hsteps (not_step_reported rfl)
  exact ⟨outcomes, hloads, Stage.reported.inj hreport⟩

theorem grows_of_checks (hg₀ : g₀.Consistent) (hs : Grows files g₀ s.graph) (hidle : s.resolving = [])
    (hrules : ∀ r ∈ l.rules.rules, calls.Steady files g₀ r.function) {p : FilePath}
    {answer : Except LoadError (List Diagnostic)} (h : l.Checks files calls s p answer s') :
    Grows files s.graph s'.graph ∧ s'.resolving = [] := by
  obtain ⟨g, resolving⟩ := s
  obtain rfl : resolving = [] := hidle
  obtain ⟨a, k, halone, hgrows, -⟩ := (gives_checkWork hg₀ hs hrules p).alone (.refl files hs.consistent)
  have hend := (Pool.inevitable_alone (size_pos_of_mayHave l.mayHave_caller) halone).of_steps
    (fun c hc => hc ▸ Pool.not_step_finished [a] ⟨k, []⟩) h (Pool.not_step_finished [answer] s')
  rw [Prod.mk.injEq] at hend
  obtain ⟨-, rfl⟩ := hend
  exact ⟨hgrows, rfl⟩

/-- Calls let the graph grow. -/
theorem Leaves.grows {base : FilePath} (hbase : base.isAbsolute = true)
    (hrules : ∀ r ∈ l.rules.rules, calls.Steady files (.empty base) r.function) (h : l.Leaves files calls base s) :
    Grows files (.empty base) s.graph ∧ s.resolving = [] := by
  have hempty := Graph.consistent_empty hbase
  induction h with
  | fresh => exact ⟨.refl files hempty, rfl⟩
  | run _ hrun ih =>
    obtain ⟨outcomes, hloads, -⟩ := loads_of_runs hempty ih.1 ih.2 hrules hrun
    exact ⟨ih.1.trans hloads.grows, hloads.idle⟩
  | check _ hcheck ih =>
    obtain ⟨hgrows, hidle⟩ := grows_of_checks hempty ih.1 ih.2 hrules hcheck
    exact ⟨ih.1.trans hgrows, hidle⟩

/-! ### The composition of a run -/

theorem runs_run (l : Linter) (files : FileSystem) (calls : Calls) (g : Graph) (paths : List FilePath) :
    l.Runs files calls ⟨g, []⟩ paths (l.run files g paths).1 ⟨(l.run files g paths).2, []⟩ :=
  ⟨.caller, l.mayHave_caller, (steps_alone_iff (size_pos_of_mayHave l.mayHave_caller) (.inl rfl)).mpr ⟨rfl, rfl⟩⟩

theorem runs_single_iff {p : FilePath} {report : Report} :
    l.Runs files calls ⟨g, []⟩ [p] report s ↔ report = (l.run files g [p]).1 ∧ s = ⟨(l.run files g [p]).2, []⟩ := by
  have hsingle : [p].length ≤ 1 := Nat.le_refl 1
  constructor
  · rintro ⟨pool, hpool, hsteps⟩
    exact (steps_alone_iff (size_pos_of_mayHave hpool) (.inr hsingle)).mp hsteps
  · rintro ⟨rfl, rfl⟩
    exact l.runs_run files calls g [p]

/-- The records of a run over a single path are those of its document, if it loads. -/
theorem records_run_single (hg : g.Consistent) (hrules : ∀ r ∈ l.rules.rules, r.function.Steady files g)
    (p : FilePath) :
    (l.run files g [p]).1.records = (g.load files p).1.toOption.toList.flatMap (l.recordsOf files g) := by
  obtain ⟨outcomes, hloads, hreport⟩ := loads_of_runs hg (s := ⟨g, []⟩) (.refl files hg) rfl
    (fun r hr => Calls.steady_inOne (hrules r hr)) (l.runs_run files .inOne g [p])
  rw [hreport, records_reportSince hg (.refl files hg) hrules hloads, hloads.answers, List.map_singleton]
  cases (g.load files p).1 <;> rfl

theorem checks_check (l : Linter) (files : FileSystem) (calls : Calls) (g : Graph) (p : FilePath) :
    l.Checks files calls ⟨g, []⟩ p (l.check files g p).1 ⟨(l.check files g p).2, []⟩ := by
  obtain ⟨_, hsteps, rfl⟩ := (Pool.inevitable_alone (size_pos_of_mayHave l.mayHave_caller)
    (does_checkWork l calls p g)).exists_steps
  exact hsteps

/-- The ids that paths stand for, each once, in the order in which they first occur. -/
def ids (base : FilePath) (paths : List FilePath) : List DocumentId :=
  (paths.map (FilePath.canonical base)).eraseDups

/-- The report of a run, put together from what single documents give when nothing else was ever loaded. -/
structure Composed (l : Linter) (files : FileSystem) (calls : Calls) (base : FilePath) (paths : List FilePath)
    (report : Report) : Prop where
  /-- The records are those of the documents that load, each checked alone, one after another. -/
  records : ∃ alone : DocumentId → Report,
    (∀ id r, (∃ s, l.Runs files calls ⟨.empty base, []⟩ [id] r s) ↔ r = alone id) ∧
      report.records = ((ids base paths).filter fun id => ((Graph.empty base).load files id).1.isOk).flatMap
        fun id => (alone id).records
  /-- There is one failure for each document that does not load. -/
  failures : report.failures.map Failure.document
    = (ids base paths).filter fun id => !((Graph.empty base).load files id).1.isOk
  /-- A failure tells why its document does not load. -/
  messages : ∀ f ∈ report.failures, ∃ e, ((Graph.empty base).load files f.document).1 = .error e ∧
    f.message = e.message
  /-- Every document is checked or fails. -/
  checked : report.checked + report.failures.length = (ids base paths).length

theorem composed_reportSince {base : FilePath} (hbase : base.isAbsolute = true) (hg : Grows files (.empty base) g)
    (hrules : ∀ r ∈ l.rules.rules, calls.Steady files (.empty base) r.function)
    {outcomes : List (Except LoadError Loaded)} (h : Loads files (.empty base) g paths outcomes s) :
    l.Composed files calls base paths (l.reportSince files (.empty base) s.graph outcomes) := by
  have hempty := Graph.consistent_empty hbase
  have hfunctions : ∀ r ∈ l.rules.rules, r.function.Steady files (.empty base) := fun r hr => (hrules r hr).function
  let answer : DocumentId → Except LoadError Loaded := fun id => ((Graph.empty base).load files id).1
  let mentions := paths.map (FilePath.canonical base)
  have hcanonical : ∀ id ∈ mentions, FilePath.canonical base id = id := by
    intro id hid
    obtain ⟨p, -, rfl⟩ := List.mem_map.mp hid
    exact FilePath.canonical_canonical hbase p
  have hanswers : outcomes = mentions.map answer := by
    rw [h.answers, List.map_map]
    refine List.map_congr_left fun p _ => congrArg Prod.fst ((Graph.empty base).load_congr files ?_)
    exact (FilePath.canonical_canonical hbase p).symm
  have hloaded : ∀ id ∈ mentions, ∀ d, answer id = .ok d → d.id = id := fun id hid d hd =>
    (hempty.id_of_load hd).trans (hcanonical id hid)
  have hfailed : ∀ id ∈ mentions, ∀ e, answer id = .error e → e.document = id := fun id hid e he =>
    (Graph.document_of_load_empty he).trans (hcanonical id hid)
  have hfailedOnce : ∀ id ∈ mentions.eraseDups, ∀ e, answer id = .error e → e.document = id := fun id hid =>
    hfailed id (List.mem_eraseDups.mp hid)
  have hfailures : (l.reportSince files (.empty base) s.graph outcomes).failures
      = mentions.eraseDups.filterMap fun id => failure? (answer id) := by
    show failedOnce outcomes = _
    rw [hanswers, failedOnce_eq hfailed]
  have hdocuments : loadedOnce outcomes = mentions.eraseDups.filterMap fun id => (answer id).toOption := by
    rw [hanswers, loadedOnce_eq hloaded]
  refine ⟨⟨fun id => (l.run files (.empty base) [id]).1, fun id r => ?alone, ?records⟩, ?failures, ?messages, ?checked⟩
  case alone =>
    constructor
    · rintro ⟨s, hruns⟩
      exact (runs_single_iff.mp hruns).1
    · rintro rfl
      exact ⟨_, l.runs_run files calls (.empty base) [id]⟩
  case records =>
    rw [records_reportSince hempty hg hfunctions h, hdocuments, flatMap_loaded]
    exact List.flatMap_congr fun id _ => (records_run_single hempty hfunctions id).symm
  case failures =>
    rw [hfailures]
    exact documents_failed answer _ hfailedOnce
  case messages =>
    intro f hf
    exact exists_of_mem_failed answer _ hfailedOnce (hfailures ▸ hf)
  case checked =>
    show (loadedOnce outcomes).length + _ = _
    rw [hdocuments, hfailures]
    exact length_loaded_add_length_failed answer _

/-- **A run comes to its report, and what it reports does not depend on who does the work, in which order it is done and
which calls were made before.**  In it documents do not meddle with each other. -/
theorem run_composed {base : FilePath} (hbase : base.isAbsolute = true) (files : FileSystem) (calls : Calls)
    (hrules : ∀ r ∈ l.rules.rules, calls.Steady files (.empty base) r.function)
    (hs : l.Leaves files calls base s) (hpool : l.MayHave pool) (paths : List FilePath) :
    Inevitable (l.Step files calls pool)
      (fun c => ∃ report, c.1 = .reported report ∧ l.Composed files calls base paths report)
      (begin files pool paths, s) := by
  have hempty := Graph.consistent_empty hbase
  obtain ⟨hgrown, hidle⟩ := hs.grows hbase hrules
  obtain ⟨g, resolving⟩ := s
  obtain rfl : resolving = [] := hidle
  refine (inevitable_reported hempty hgrown (size_pos_of_mayHave hpool) hrules paths).mono ?_
  rintro c ⟨outcomes, hloads, hreport⟩
  exact ⟨_, hreport, composed_reportSince hbase hgrown hrules hloads⟩

theorem records_run_of_view (hg : g.Consistent) (hrules : ∀ r ∈ l.rules.rules, r.function.Steady files g)
    {p : FilePath} (hd : d ∈ (g.load files p).1.toOption) {v : View} (hview : (View.ofLoaded files g d).1 = v) :
    (l.run files g [p]).1.records
      = (l.activeRules.flatMap (l.ruleDiagnostics files v g)).map (.ofDiagnostic (g.load files d.id).2) := by
  have hload := Graph.load_of_mem_toOption hd
  rw [records_run_single hg hrules, hload, ← hview, ← checkLoaded_eq hg (Graph.yields_of_load hg hload) hrules]
  exact List.flatMap_singleton ..

def atRoot (name : String) (f : RuleFunction) : Rule :=
  ⟨name, name, "", .warning, "", .all, false, [], none, .null, f⟩

def members : RuleFunction :=
  .streaming fun c _ n g => (n.children.map fun child => .ok ⟨"", c.pathTo [child.1]⟩, g)

def missing (p : FilePath) : RuleFunction :=
  .eager fun c _ g => (.ok (if (g.load c.files p).1.isOk then [] else [⟨"", []⟩]), (g.load c.files p).2)

theorem steady_members (files : FileSystem) (g : Graph) : members.Steady files g :=
  RuleFunction.steady_of_pure files g (fun c _ n => n.children.map fun child => .ok ⟨"", c.pathTo [child.1]⟩) fun _ _ _ _ => rfl

theorem steady_missing (hg : g.Consistent) (files : FileSystem) (p : FilePath) : (missing p).Steady files g := by
  refine RuleFunction.steady_of_eager fun c n hc => ?_
  rw [hc]
  exact (Graph.settled_load hg files p).map
    (f := fun answer => (.ok (if answer.isOk then [] else [⟨"", []⟩]) : Except Fault (List Finding)))

def told (records : List Record) : List (String × DocumentId × Path) :=
  records.map fun r => (r.code, r.document, r.path)

/-- One document is linted before, and another one checked.  Then two workers make a run over five paths, which stand for
these two and for a file that is missing.  One rule finds the members of a document, and the other one loads the missing
file. -/
theorem run_composed_of_repeated_paths : ∃ (l : Linter) (files : FileSystem) (s s' : Shared) (report : Report)
    (answer : Except LoadError (List Diagnostic)) (paths : List FilePath), (⟨"/"⟩ : FilePath).isAbsolute = true ∧
      (∀ r ∈ l.rules.rules, Calls.inOne.Steady files (.empty ⟨"/"⟩) r.function) ∧
      l.Runs files .inOne ⟨.empty ⟨"/"⟩, []⟩ [⟨"/a.json"⟩] report s ∧ l.Checks files .inOne s ⟨"b.json"⟩ answer s' ∧
      l.settings.workers = some 2 ∧ l.MayHave (.workers 2) ∧ paths.length = 5 ∧
      ids ⟨"/"⟩ paths = [⟨"/b.json"⟩, ⟨"/c.json"⟩, ⟨"/a.json"⟩] ∧
      Inevitable (l.Step files .inOne (.workers 2)) (fun c => ∃ report, c.1 = .reported report ∧
        told report.records = [("members", ⟨"/b.json"⟩, [.key "y"]), ("missing", ⟨"/b.json"⟩, []),
          ("members", ⟨"/a.json"⟩, [.key "x"]), ("missing", ⟨"/a.json"⟩, [])] ∧
        report.failures.map Failure.document = [⟨"/c.json"⟩] ∧ l.Composed files .inOne ⟨"/"⟩ paths report)
        (begin files (.workers 2) paths, s') := by
  let files : FileSystem := ⟨[(⟨"/a.json"⟩, "\x7b\"x\":\x7b\"$ref\":\"b.json#/y\"\x7d\x7d"),
    (⟨"/b.json"⟩, "\x7b\"y\":1\x7d")], fun _ => "no such file"⟩
  let l : Linter := ⟨⟨[atRoot "members" members, atRoot "missing" (missing ⟨"c.json"⟩)]⟩, ⟨.default, some 2, none, []⟩⟩
  let paths : List FilePath := [⟨"b.json"⟩, ⟨"c.json"⟩, ⟨"./b.json"⟩, ⟨"a.json"⟩, ⟨"x/../c.json"⟩]
  let g₀ : Graph := .empty ⟨"/"⟩
  have hbase : (⟨"/"⟩ : FilePath).isAbsolute = true := by decide +kernel
  have hempty : g₀.Consistent := Graph.consistent_empty hbase
  have hfunctions : ∀ r ∈ l.rules.rules, r.function.Steady files g₀ := by
    intro r hr
    rcases List.mem_cons.mp hr with rfl | hr
    · exact steady_members files g₀
    · exact List.mem_singleton.mp hr ▸ steady_missing hempty files ⟨"c.json"⟩
  have hrules : ∀ r ∈ l.rules.rules, Calls.inOne.Steady files g₀ r.function := fun r hr =>
    Calls.steady_inOne (hfunctions r hr)
  have hran := l.runs_run files .inOne g₀ [⟨"/a.json"⟩]
  have hchecked := l.checks_check files .inOne (l.run files g₀ [⟨"/a.json"⟩]).2 ⟨"b.json"⟩
  have hpool : l.MayHave (.workers 2) := ⟨1, .workers (Nat.lt_succ_self 1)⟩
  -- what a run over one of the documents reports, by its view
  have hfirst : ∃ a ∈ (g₀.load files ⟨"/a.json"⟩).1.toOption,
      ∃ other ∈ (View.loadTargets files [a.id] a.references.edges g₀).1.head?,
        (View.loadTargets files [a.id] a.references.edges g₀).1.length = 1 ∧ other.id ≠ a.id ∧
        other.references.edges = [] ∧ told ((l.activeRules.flatMap (l.ruleDiagnostics files ⟨a, [other]⟩ g₀)).map
          (.ofDiagnostic (g₀.load files a.id).2))
          = [("members", ⟨"/a.json"⟩, [.key "x"]), ("missing", ⟨"/a.json"⟩, [])] := by
    decide +kernel
  have hsecond : ∃ b ∈ (g₀.load files ⟨"/b.json"⟩).1.toOption, b.references.edges = [] ∧
      told ((l.activeRules.flatMap (l.ruleDiagnostics files ⟨b, []⟩ g₀)).map (.ofDiagnostic (g₀.load files b.id).2))
        = [("members", ⟨"/b.json"⟩, [.key "y"]), ("missing", ⟨"/b.json"⟩, [])] := by
    decide +kernel
  have hloads : (ids ⟨"/"⟩ paths).filter (fun id => (g₀.load files id).1.isOk) = [⟨"/b.json"⟩, ⟨"/a.json"⟩] := by
    decide +kernel
  have hfails : (ids ⟨"/"⟩ paths).filter (fun id => !(g₀.load files id).1.isOk) = [⟨"/c.json"⟩] := by
    decide +kernel
  obtain ⟨a, ha, other, hother, hone, hne, hown, htoldA⟩ := hfirst
  obtain ⟨b, hb, hown', htoldB⟩ := hsecond
  refine ⟨l, files, _, _, _, _, paths, hbase, hrules, hran, hchecked, rfl, hpool, rfl, by decide +kernel,
    (run_composed hbase files .inOne hrules ((Leaves.fresh.run hran).check hchecked) hpool paths).mono ?_⟩
  rintro c ⟨report, hreport, hcomposed⟩
  refine ⟨report, hreport, ?_, hcomposed.failures.trans hfails, hcomposed⟩
  obtain ⟨alone, halone, hrecords⟩ := hcomposed.records
  have hsame : ∀ id, alone id = (l.run files g₀ [id]).1 := fun id =>
    ((halone id _).mp ⟨_, l.runs_run files .inOne g₀ [id]⟩).symm
  obtain ⟨other', hfound⟩ := List.length_eq_one_iff.mp hone
  rw [hfound] at hother
  cases hother
  have hviewA := congrArg Prod.fst (View.ofLoaded_of_pair (Prod.ext hfound rfl) (List.cons_ne_nil _ _) hne
    (by rw [hown]; exact fun _ he => nomatch he))
  have hedges : ∀ e ∈ b.references.edges, e.target.document = b.id := by
    rw [hown']
    exact fun _ he => nomatch he
  have hviewB := congrArg Prod.fst (View.ofLoaded_of_own files g₀ hedges)
  rw [hrecords, hloads, List.flatMap_cons, List.flatMap_singleton, hsame, hsame,
    records_run_of_view hempty hfunctions hb hviewB, records_run_of_view hempty hfunctions ha hviewA, told,
    List.map_append]
  exact congrArg₂ (· ++ ·) htoldB htoldA

end Linter

end ApiLint
