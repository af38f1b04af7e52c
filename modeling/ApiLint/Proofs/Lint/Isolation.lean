import ApiLint.Lint
import ApiLint.Proofs.Graph.Sessions
import ApiLint.Proofs.View.Answers

/-!
# Rules are isolated

A rule function is steady if what it yields depends on its context, its options and its node, and not on which
documents were loaded before it is called (`RuleFunction.Steady`).  Then every call for a target is settled, so calling
one rule after another, and each of them for one target after another, is calling each as if it were the only one
(`Graph.each_eq`).

`Linter.Isolated` says what this comes to.  The diagnostics of a document are those that each rule alone gives, one
rule after another; those of a rule are what its calls contribute, one target after another; and what a call
contributes ends with its first fault, of which one diagnostic tells (`Contributes`).  So a fault of one rule leaves
those of all others as they are.
-/

namespace ApiLint

open ApiLint.Graph (Grows Settled Yields)

variable {files : FileSystem} {g : Graph}

/-! ### One operation for each element -/

namespace Graph

variable {α β : Type} {f : α → Graph → β × Graph}

theorem settled_each (hg : g.Consistent) (xs : List α) (h : ∀ x ∈ xs, Settled files g (f x)) :
    Settled files g (each f xs) := by
  induction xs with
  | nil => exact .pure files g []
  | cons x xs ih =>
    have hrest := ih fun y hy => h y (List.mem_cons_of_mem x hy)
    exact .bind hg (h x (List.mem_cons_self ..)) (k := fun y g => (y :: (each f xs g).1, (each f xs g).2))
      (fun _ => rfl) hrest.map

/-- What is kept from one element to the next holds of every graph on the way. -/
theorem exists_of_mem_each {P : Graph → Prop} {xs : List α} (hstep : ∀ x ∈ xs, ∀ g, P g → P (f x g).2) (hg : P g) :
    P (each f xs g).2 ∧ ∀ y ∈ (each f xs g).1, ∃ x ∈ xs, ∃ h, P h ∧ (f x h).1 = y := by
  induction xs generalizing g with
  | nil => exact ⟨hg, fun y hy => absurd hy List.not_mem_nil⟩
  | cons x xs ih =>
    have hx := hstep x (List.mem_cons_self ..)
    obtain ⟨hlast, hrest⟩ := ih (fun y hy => hstep y (List.mem_cons_of_mem x hy)) (hx g hg)
    refine ⟨hlast, fun y hy => ?_⟩
    rcases List.mem_cons.mp hy with rfl | hy
    · exact ⟨x, List.mem_cons_self .., g, hg, rfl⟩
    · obtain ⟨x', hx', h, hh, heq⟩ := hrest y hy
      exact ⟨x', List.mem_cons_of_mem x hx', h, hh, heq⟩

/-- Settled operations answer one after another what each answers alone. -/
theorem each_eq (hg : g.Consistent) (xs : List α) (h : ∀ x ∈ xs, Settled files g (f x)) :
    (each f xs g).1 = xs.map fun x => (f x g).1 := by
  induction xs with
  | nil => rfl
  | cons x xs ih =>
    have htail : ∀ y ∈ xs, Settled files g (f y) := fun y hy => h y (List.mem_cons_of_mem x hy)
    have hfirst := (h x (List.mem_cons_self ..)).grows g (.refl files hg)
    have hrest := (settled_each hg xs htail).same _ hfirst
    rw [List.map_cons, ← ih htail, ← hrest]
    rfl

end Graph

/-! ### Rule functions -/

/-- What the function yields does not depend on which documents were loaded since `g`, and all that a call does to a
graph is to let it grow. -/
def RuleFunction.Steady (files : FileSystem) (g : Graph) (f : RuleFunction) : Prop :=
  ∀ (c : Context) (options : Value) (n : Node), c.files = files → Settled files g (f.call c options n)

theorem RuleFunction.Steady.grows {f : RuleFunction} {h : Graph} (hf : f.Steady files g) (hgh : Grows files g h) :
    f.Steady files h :=
  fun c options n hc => (hf c options n hc).of_grows hgh

/-- A function that leaves the graph alone is steady. -/
theorem RuleFunction.steady_of_pure {f : RuleFunction} (files : FileSystem) (g : Graph)
    (items : Context → Value → Node → List (Except Fault Finding))
    (h : ∀ c options n g, f.call c options n g = (items c options n, g)) : f.Steady files g := by
  intro c options n _
  have hcall : f.call c options n = fun g => (items c options n, g) := funext (h c options n)
  rw [hcall]
  exact .pure files g _

/-- What a call of a rule for the node at `target` contributes, by what the call yields: the findings in front of the
first fault, and for the fault a diagnostic of its own. -/
inductive Contributes (r : Rule) (severity : Severity) (document : DocumentId) (target : Path) :
    List (Except Fault Finding) → List Diagnostic → Prop
  | finished (findings : List Finding) : Contributes r severity document target (findings.map .ok)
    (findings.map (.ofFinding r severity document))
  | stopped (findings : List Finding) (fault : Fault) (rest : List (Except Fault Finding)) :
    Contributes r severity document target (findings.map .ok ++ .error fault :: rest)
      (findings.map (.ofFinding r severity document) ++
        [⟨r.id, r.name, .error, r.category, s!"Rule {r.name} failed: {fault.text}", document, target⟩])

/-- What is yielded is findings, and behind them nothing or the first fault. -/
theorem untilFault_cases (items : List (Except Fault Finding)) :
    (items = (untilFault items).1.map .ok ∧ (untilFault items).2 = none) ∨
      ∃ fault rest, items = (untilFault items).1.map .ok ++ .error fault :: rest ∧
        (untilFault items).2 = some fault := by
  induction items with
  | nil => exact .inl ⟨rfl, rfl⟩
  | cons item items ih =>
    cases item with
    | error fault => exact .inr ⟨fault, items, rfl, rfl⟩
    | ok f =>
      rcases ih with ⟨hitems, hfault⟩ | ⟨fault, rest, hitems, hfault⟩
      · exact .inl ⟨congrArg (.ok f :: ·) hitems, hfault⟩
      · exact .inr ⟨fault, rest, congrArg (.ok f :: ·) hitems, hfault⟩

theorem untilFault_map_ok (findings : List Finding) : untilFault (findings.map .ok) = (findings, none) := by
  induction findings with
  | nil => rfl
  | cons f findings ih => rw [List.map_cons, untilFault, ih]

/-! ### Linters -/

namespace Linter

def only (l : Linter) (r : Rule) : Linter :=
  { l with rules := ⟨[r]⟩ }

def invoke (l : Linter) (files : FileSystem) (v : View) (r : Rule) (target : Query.Match) :
    Graph → List (Except Fault Finding) × Graph :=
  r.function.call ⟨files, v, treeFor v r, target.path⟩ (r.mergedOptions (l.settings.options r.name)) target.node

/-- What is said of a rule when each of its targets is visited in the graph `g`. -/
def ruleDiagnostics (l : Linter) (files : FileSystem) (v : View) (g : Graph) (r : Rule) : List Diagnostic :=
  (r.targets (treeFor v r)).flatMap fun t => l.diagnosticsOf v r t.path (l.invoke files v r t g).1

theorem contributes_diagnosticsOf (l : Linter) (v : View) (r : Rule) (target : Path)
    (items : List (Except Fault Finding)) :
    Contributes r (l.severityOf r) v.id target items (l.diagnosticsOf v r target items) := by
  rw [diagnosticsOf]
  rcases untilFault_cases items with ⟨hitems, hfault⟩ | ⟨fault, rest, hitems, hfault⟩
  · have hfinished : Contributes r (l.severityOf r) v.id target ((untilFault items).1.map .ok) _ := .finished _
    rw [hfault, Option.map_none, Option.toList_none, List.append_nil]
    rwa [← hitems] at hfinished
  · have hstopped : Contributes r (l.severityOf r) v.id target
        ((untilFault items).1.map .ok ++ .error fault :: rest) _ := .stopped _ fault rest
    rw [hfault, Option.map_some, Option.toList_some]
    rwa [← hitems] at hstopped

variable {l : Linter} {v : View} {r : Rule} {d : Loaded}

theorem settled_checkTarget (hr : r.function.Steady files g) (l : Linter) (v : View) (target : Query.Match) :
    Settled files g (l.checkTarget files v r target) :=
  (hr ⟨files, v, treeFor v r, target.path⟩ _ target.node rfl).map (f := l.diagnosticsOf v r target.path)

theorem settled_checkRule (hg : g.Consistent) (hr : r.function.Steady files g) (l : Linter) (v : View) :
    Settled files g (l.checkRule files v r) :=
  (Graph.settled_each hg _ fun target _ => settled_checkTarget hr l v target).map (f := List.flatten)

theorem checkRule_eq (hg : g.Consistent) (hr : r.function.Steady files g) (l : Linter) (v : View) :
    (l.checkRule files v r g).1 = l.ruleDiagnostics files v g r := by
  have htargets := Graph.each_eq hg (r.targets (treeFor v r)) fun target _ => settled_checkTarget hr l v target
  exact congrArg List.flatten htargets

/-- **The diagnostics of a document are those of the rules that apply**, each called as if it were the only one. -/
theorem checkLoaded_eq (hg : g.Consistent) (hd : g.Yields files d)
    (hrules : ∀ r ∈ l.rules.rules, r.function.Steady files g) :
    (l.checkLoaded files d g).1
      = l.activeRules.flatMap (l.ruleDiagnostics files (View.ofLoaded files g d).1 g) := by
  have hview := (View.settled_ofLoaded hg hd).grows g (.refl files hg)
  have hsteady : ∀ r ∈ l.activeRules, r.function.Steady files g := fun r hr => hrules r (List.mem_filter.mp hr).1
  have hrun := Graph.each_eq hview.consistent l.activeRules fun r hr =>
    settled_checkRule hview.consistent ((hsteady r hr).grows hview) l (View.ofLoaded files g d).1
  have hsame : ∀ r ∈ l.activeRules,
      (l.checkRule files (View.ofLoaded files g d).1 r (View.ofLoaded files g d).2).1
        = l.ruleDiagnostics files (View.ofLoaded files g d).1 g r := by
    intro r hr
    rw [(settled_checkRule hg (hsteady r hr) l _).same _ hview, checkRule_eq hg (hsteady r hr)]
  rw [List.map_congr_left hsame] at hrun
  exact congrArg List.flatten hrun

/-- A rule alone gives what is said of it, if it applies. -/
theorem checkLoaded_only (hg : g.Consistent) (hd : g.Yields files d) (hr : r.function.Steady files g) :
    ((l.only r).checkLoaded files d g).1
      = if r.types.contains l.settings.type && l.settings.isEnabled r.name then
          l.ruleDiagnostics files (View.ofLoaded files g d).1 g r
        else [] := by
  have hrules : ∀ s ∈ (l.only r).rules.rules, s.function.Steady files g := by
    intro s hs
    obtain rfl := List.mem_singleton.mp hs
    exact hr
  rw [checkLoaded_eq hg hd hrules, activeRules, only, List.filter_singleton]
  cases r.types.contains l.settings.type && l.settings.isEnabled r.name with
  | true => exact List.append_nil _
  | false => rfl

/-- **The diagnostics of a document are those that each rule alone gives**, one rule after another. -/
theorem checkLoaded_eq_flatMap_only (hg : g.Consistent) (hd : g.Yields files d)
    (hrules : ∀ r ∈ l.rules.rules, r.function.Steady files g) :
    (l.checkLoaded files d g).1 = l.rules.rules.flatMap fun r => ((l.only r).checkLoaded files d g).1 := by
  have hfilter : ∀ (applies : Rule → Bool) (f : Rule → List Diagnostic) (rules : List Rule),
      (rules.filter applies).flatMap f = rules.flatMap fun r => if applies r then f r else [] := by
    intro applies f rules
    induction rules with
    | nil => rfl
    | cons r rules ih =>
      rw [List.flatMap_cons, ← ih]
      by_cases hr : applies r = true
      · rw [List.filter_cons_of_pos hr, List.flatMap_cons, if_pos hr]
      · rw [List.filter_cons_of_neg hr, if_neg hr, List.nil_append]
  rw [checkLoaded_eq hg hd hrules, activeRules, hfilter]
  exact List.flatMap_congr fun r hr => (checkLoaded_only hg hd (hrules r hr)).symm

/-- The rules of the linter do not meddle with each other when the document `d` is checked. -/
structure Isolated (l : Linter) (files : FileSystem) (d : Loaded) (g : Graph) : Prop where
  /-- The diagnostics are those that each rule alone gives, one rule after another. -/
  rules : (l.checkLoaded files d g).1 = l.rules.rules.flatMap fun r => ((l.only r).checkLoaded files d g).1
  /-- A rule that is disabled or that is not for the kind of description gives none. -/
  idle : ∀ r ∈ l.rules.rules, l.settings.isEnabled r.name = false ∨ r.types.contains l.settings.type = false →
    ((l.only r).checkLoaded files d g).1 = []
  /-- Any other rule gives what its calls contribute, one target after another, at the severity that it is given or
  else at its own. -/
  calls : ∀ r ∈ l.rules.rules, l.settings.isEnabled r.name = true → r.types.contains l.settings.type = true →
    let v := (View.ofLoaded files g d).1
    ∃ contribution : Query.Match → List Diagnostic,
      ((l.only r).checkLoaded files d g).1 = (r.targets (treeFor v r)).flatMap contribution ∧
        ∀ target ∈ r.targets (treeFor v r),
          Contributes r ((l.settings.severity? r.name).getD r.severity) d.id target.path
            (r.function.call ⟨files, v, treeFor v r, target.path⟩ (r.mergedOptions (l.settings.options r.name))
              target.node g).1
            (contribution target)
  /-- Whatever the function of a rule does instead, the diagnostics of the rules before and after it stay. -/
  faults : ∀ before after r (f : RuleFunction), l.rules.rules = before ++ r :: after → f.Steady files g →
    let alone (r : Rule) := ((l.only r).checkLoaded files d g).1
    (l.checkLoaded files d g).1 = before.flatMap alone ++ alone r ++ after.flatMap alone ∧
      (checkLoaded ⟨⟨before ++ { r with function := f } :: after⟩, l.settings⟩ files d g).1
        = before.flatMap alone ++ alone { r with function := f } ++ after.flatMap alone

theorem isolated_of_yields (hg : g.Consistent) (hd : g.Yields files d)
    (hrules : ∀ r ∈ l.rules.rules, r.function.Steady files g) : l.Isolated files d g := by
  refine ⟨checkLoaded_eq_flatMap_only hg hd hrules, ?idle, ?calls, ?faults⟩
  case idle =>
    intro r hr hidle
    rw [checkLoaded_only hg hd (hrules r hr), if_neg]
    rcases hidle with hidle | hidle
    · rw [hidle, Bool.and_false]
      exact Bool.false_ne_true
    · rw [hidle, Bool.false_and]
      exact Bool.false_ne_true
  case calls =>
    intro r hr henabled htypes v
    refine ⟨fun t => l.diagnosticsOf v r t.path (l.invoke files v r t g).1, ?_, ?_⟩
    · rw [checkLoaded_only hg hd (hrules r hr), htypes, henabled]
      rfl
    · intro t _
      exact contributes_diagnosticsOf l v r t.path (l.invoke files v r t g).1
  case faults =>
    intro before after r f hl hf
    have hrules' : ∀ s ∈ before ++ { r with function := f } :: after, s.function.Steady files g := by
      intro s hs
      rcases List.mem_append.mp hs with hs | hs
      · exact hrules s (hl ▸ List.mem_append_left _ hs)
      · rcases List.mem_cons.mp hs with rfl | hs
        · exact hf
        · exact hrules s (hl ▸ List.mem_append_right _ (List.mem_cons_of_mem r hs))
    constructor
    · rw [checkLoaded_eq_flatMap_only hg hd hrules, hl, List.flatMap_append, List.flatMap_cons, List.append_assoc]
    · rw [checkLoaded_eq_flatMap_only hg hd hrules', List.flatMap_append, List.flatMap_cons, List.append_assoc]
      rfl

/-- **Rules are isolated on every document that is loaded.** -/
theorem isolated {base : FilePath} (hbase : base.isAbsolute = true) {s : Session} (hs : s.From base) {p : FilePath}
    (h : s.graph.load s.files p = (.ok d, g)) (hrules : ∀ r ∈ l.rules.rules, r.function.Steady s.files g) :
    l.Isolated s.files d g := by
  have hload := (hs.consistent hbase).loading s.files p
  rw [h] at hload
  have hheld := hload.consistent.load_of_holds (hload.holds d rfl) s.files
  exact isolated_of_yields hload.consistent (congrArg Prod.fst hheld) hrules

/-- One rule fails at once, the other yields a finding and crashes: three diagnostics, and the finding has the severity
that the settings give. -/
theorem isolated_of_two_faults : ∃ l : Linter, ∃ s : Session, ∃ d g,
    (⟨"/"⟩ : FilePath).isAbsolute = true ∧ s.From ⟨"/"⟩ ∧ s.graph.load s.files ⟨"a.json"⟩ = (.ok d, g) ∧
      (∀ r ∈ l.rules.rules, r.function.Steady s.files g) ∧ l.Isolated s.files d g ∧
      (l.checkLoaded s.files d g).1.map (fun x => (x.ruleName, x.severity, x.message)) =
        [("first", .error, "Rule first failed: no"), ("second", .info, "found"),
          ("second", .error, "Rule second failed: rule panicked: unknown panic")] := by
  let rule (name : String) (f : RuleFunction) : Rule :=
    ⟨name, name, "", .warning, "", .all, false, [], none, .null, f⟩
  let first := rule "first" (.eager fun _ _ g => (.error (.message "no"), g))
  let second := rule "second" (.streaming fun c _ _ g =>
    ([.ok ⟨"found", c.location⟩, .error (.crash none), .ok ⟨"never", []⟩], g))
  let l : Linter := ⟨⟨[first, second]⟩, { Settings.default with rules := [("second", ⟨none, some .info, []⟩)] }⟩
  let files : FileSystem := ⟨[(⟨"/a.json"⟩, "1")], fun _ => "no such file"⟩
  have hbase : (⟨"/"⟩ : FilePath).isAbsolute = true := by decide +kernel
  have hfrom : (⟨files, .empty ⟨"/"⟩⟩ : Session).From ⟨"/"⟩ := ⟨files, [], rfl⟩
  have hfound : ((Graph.load files (.empty ⟨"/"⟩) ⟨"a.json"⟩).1.toOption.map fun d => (d.references.edges,
      (Graph.each (l.checkRule files ⟨d, []⟩) l.activeRules (.empty ⟨"/"⟩)).1.flatten.map
        fun x => (x.ruleName, x.severity, x.message))) = some ([],
      [("first", .error, "Rule first failed: no"), ("second", .info, "found"),
        ("second", .error, "Rule second failed: rule panicked: unknown panic")]) := by
    decide +kernel
  have hsteady : ∀ g, ∀ r ∈ l.rules.rules, r.function.Steady files g := by
    intro g r hr
    rcases List.mem_cons.mp hr with rfl | hr
    · exact RuleFunction.steady_of_pure files g _ fun _ _ _ _ => rfl
    · obtain rfl := List.mem_singleton.mp hr
      exact RuleFunction.steady_of_pure files g _ fun _ _ _ _ => rfl
  cases hload : Graph.load files (.empty ⟨"/"⟩) ⟨"a.json"⟩ with
  | mk answer g =>
    rw [hload] at hfound
    cases answer with
    | error e => cases hfound
    | ok d =>
      obtain ⟨hedges, hfound⟩ := Prod.mk.inj (Option.some.inj hfound)
      have hown : ∀ e ∈ d.references.edges, e.target.document = d.id := by
        intro e he
        rw [hedges] at he
        exact absurd he List.not_mem_nil
      have hview := View.ofLoaded_of_own files g hown
      refine ⟨l, _, d, g, hbase, hfrom, hload, hsteady g, isolated hbase hfrom hload (hsteady g), ?_⟩
      rw [checkLoaded, hview]
      exact hfound

end Linter

end ApiLint
