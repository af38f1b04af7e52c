import ApiLint.Proofs.View.Inheritance

/-!
# Looking for one property and collecting all of them

A model is looked up, and behind it the models that it inherits from, each in front of its own parents.  Whoever looks
for one property stops at the first model that declares it; whoever collects all of them goes on to the end.  Both keep
the places that they came to, and go to none of these again.

`View.Climbs` is such a climb told as a recursion: what lies above a model comes first, then what stands beside it.  The
list of models that a lineage works off is this recursion laid out flat (`View.Climbs.lineageOf_append`), and the
recursion ends wherever it starts, in circles too, for on the way either there are fewer places left to come to or what
is left to look up is smaller (`View.exists_climbs`).

A search and a collection come to the same models at the same places up to the one where the search stops
(`View.findSome?_lineageOf`).  So the search finds what the collection has under the name (`View.property_agrees`).
-/

namespace ApiLint

open ApiLint.Graph (Grows)

namespace View

/-! ### Climbs as a recursion -/

/-- How far a climb has come: the places that it came to, and the documents that were loaded. -/
structure Ascent where
  seen : List Location
  graph : Graph

/-- A climb from `a` over some values, and behind each of them over what it inherits from, comes to the given models and
gets to an ascent behind them.  It has stopped early if the last model is the first one that satisfies `stop`. -/
inductive Climbs (files : FileSystem) (v : View) (stop : Value → Bool) :
    Ascent → List Value → List Value → Bool → Ascent → Prop
  | done (a : Ascent) : Climbs files v stop a [] [] false a
  | nothing {a b c : Ascent} {value : Value} {pending models : List Value} {stopped : Bool} :
    v.dereference files a.graph a.seen value = (none, b.seen, b.graph) →
    Climbs files v stop b pending models stopped c → Climbs files v stop a (value :: pending) models stopped c
  | stops {a b : Ascent} {value model : Value} {pending : List Value} :
    v.dereference files a.graph a.seen value = (some model, b.seen, b.graph) → stop model = true →
    Climbs files v stop a (value :: pending) [model] true b
  | above {a b c : Ascent} {value model : Value} {pending models : List Value} :
    v.dereference files a.graph a.seen value = (some model, b.seen, b.graph) → stop model = false →
    Climbs files v stop b (parents model) models true c →
    Climbs files v stop a (value :: pending) (model :: models) true c
  | beside {a b c d : Ascent} {value model : Value} {pending above beside : List Value} {stopped : Bool} :
    v.dereference files a.graph a.seen value = (some model, b.seen, b.graph) → stop model = false →
    Climbs files v stop b (parents model) above false c → Climbs files v stop c pending beside stopped d →
    Climbs files v stop a (value :: pending) (model :: (above ++ beside)) stopped d

variable {files : FileSystem} {v : View} {stop : Value → Bool} {a b : Ascent} {pending models : List Value}
  {stopped : Bool}

/-- **A lineage is the climb laid out flat.**  What is due behind the climb is looked up unless it stopped early. -/
theorem Climbs.lineageOf_append (h : Climbs files v stop a pending models stopped b) (rest : List Value) :
    lineageOf files v stop a.graph a.seen (pending ++ rest)
      = if stopped then (models, b.graph)
        else (models ++ (lineageOf files v stop b.graph b.seen rest).1,
          (lineageOf files v stop b.graph b.seen rest).2) := by
  induction h generalizing rest with
  | done a => rfl
  | nothing hfound _ ih =>
    rw [List.cons_append, lineageOf_cons, hfound]
    exact ih rest
  | stops hfound hstop =>
    rw [List.cons_append, lineageOf_cons, hfound, lineageAfter, if_pos hstop, if_pos rfl]
  | above hfound hstop _ ih =>
    rw [List.cons_append, lineageOf_cons, hfound, lineageAfter, hstop, if_neg Bool.false_ne_true, ih, if_pos rfl,
      if_pos rfl]
  | @beside a b c d value model pending above beside stopped hfound hstop _ _ ihAbove ihBeside =>
    rw [List.cons_append, lineageOf_cons, hfound, lineageAfter, hstop, if_neg Bool.false_ne_true, ihAbove,
      if_neg Bool.false_ne_true, ihBeside]
    cases stopped with
    | true => rfl
    | false => simp only [Bool.false_eq_true, if_false, List.cons_append, List.append_assoc]

theorem Climbs.lineageOf_eq (h : Climbs files v stop a pending models stopped b) :
    lineageOf files v stop a.graph a.seen pending = (models, b.graph) := by
  have hflat := h.lineageOf_append []
  rw [List.append_nil] at hflat
  rw [hflat, lineageOf]
  cases stopped with
  | true => rfl
  | false => simp only [Bool.false_eq_true, if_false, List.append_nil]

/-- Whatever is come to on a climb, no more places are left to come to than before. -/
theorem Climbs.unseen_le (h : Climbs files v stop a pending models stopped b) :
    (v.unseen b.seen).length ≤ (v.unseen a.seen).length := by
  have hstep : ∀ {a b : Ascent} {value : Value} {found : Option Value},
      v.dereference files a.graph a.seen value = (found, b.seen, b.graph) →
      (v.unseen b.seen).length ≤ (v.unseen a.seen).length := by
    intro a b value found hfound
    rcases dereference_progress hfound with hlt | ⟨hle, -⟩
    · exact hlt.le
    · exact hle
  induction h with
  | done a => exact Nat.le_refl _
  | nothing hfound _ ih => exact ih.trans (hstep hfound)
  | stops hfound _ => exact hstep hfound
  | above hfound _ _ ih => exact ih.trans (hstep hfound)
  | beside hfound _ _ _ ihAbove ihBeside => exact ihBeside.trans (ihAbove.trans (hstep hfound))

/-- **Every climb ends**, whatever the references lead to. -/
theorem exists_climbs (files : FileSystem) (v : View) (stop : Value → Bool) (a : Ascent) (pending : List Value) :
    ∃ models stopped b, Climbs files v stop a pending models stopped b := by
  cases pending with
  | nil => exact ⟨[], false, a, .done a⟩
  | cons value pending =>
    have hless : sizes pending < sizes (value :: pending) := by
      have hpos := value.sizeOf_pos
      simp only [sizes]
      omega
    cases hfound : v.dereference files a.graph a.seen value with
    | mk found rest =>
      obtain ⟨seen, graph⟩ := rest
      have hprogress := dereference_progress hfound
      have hfewer : (v.unseen seen).length ≤ (v.unseen a.seen).length := hprogress.elim Nat.le_of_lt And.left
      cases found with
      | none =>
        obtain ⟨models, stopped, b, hclimbs⟩ := exists_climbs files v stop ⟨seen, graph⟩ pending
        exact ⟨models, stopped, b, .nothing hfound hclimbs⟩
      | some model =>
        cases hstop : stop model with
        | true => exact ⟨[model], true, ⟨seen, graph⟩, .stops hfound hstop⟩
        | false =>
          -- a model that is not looked up at a new place is the value itself, and its parents are smaller
          have habove : Prod.Lex (· < ·) (· < ·) ((v.unseen seen).length, sizes (parents model))
              ((v.unseen a.seen).length, sizes (value :: pending)) := by
            rcases hprogress with hlt | ⟨hle, hnone | hself⟩
            · exact .left _ _ hlt
            · cases hnone
            · cases hself
              refine lex_of_le hle ?_
              have hparents := sizes_parents_lt value
              simp only [sizes]
              omega
          obtain ⟨above, early, b, hclimbs⟩ := exists_climbs files v stop ⟨seen, graph⟩ (parents model)
          cases early with
          | true => exact ⟨model :: above, true, b, .above hfound hstop hclimbs⟩
          | false =>
            have hleft : (v.unseen b.seen).length ≤ (v.unseen a.seen).length := hclimbs.unseen_le.trans hfewer
            obtain ⟨beside, stopped, c, hrest⟩ := exists_climbs files v stop b pending
            exact ⟨model :: (above ++ beside), stopped, c, .beside hfound hstop hclimbs hrest⟩
termination_by ((v.unseen a.seen).length, sizes pending)
decreasing_by
  · exact lex_of_le hfewer hless
  · exact habove
  · exact lex_of_le hleft hless

/-! ### The first declaration of a name -/

/-- What is declared stays, and of what is added only new names count. -/
theorem lookup_declare (name : String) (declared own : List (String × Value)) :
    List.lookup name (declare declared own) = (List.lookup name declared).or (List.lookup name own) := by
  rw [declare]
  induction own generalizing declared with
  | nil => exact (Option.or_none).symm
  | cons p own ih =>
    obtain ⟨k, w⟩ := p
    rw [List.foldl_cons, ih]
    by_cases hk : (List.lookup k declared).isSome = true
    · rw [if_pos hk, lookup_cons]
      by_cases hname : k = name
      · obtain ⟨u, hu⟩ := Option.isSome_iff_exists.mp (hname ▸ hk)
        rw [hu, Option.some_or, Option.some_or]
      · rw [if_neg hname]
    · rw [if_neg hk, List.lookup_append, lookup_cons, lookup_cons, List.lookup_nil, Option.or_assoc]
      by_cases hname : k = name
      · rw [if_pos hname, if_pos hname, Option.some_or]
      · rw [if_neg hname, if_neg hname, Option.none_or]

/-- Of the declarations of a name, that of the first model counts. -/
theorem lookup_foldl_declare (name : String) (models : List Value) :
    List.lookup name ((models.map ownProperties).foldl declare [])
      = models.findSome? fun m => List.lookup name (ownProperties m) := by
  have hfold : ∀ declared, List.lookup name ((models.map ownProperties).foldl declare declared)
      = (List.lookup name declared).or (models.findSome? fun m => List.lookup name (ownProperties m)) := by
    induction models with
    | nil => exact fun _ => Option.or_none.symm
    | cons m models ih =>
      intro declared
      rw [List.map_cons, List.foldl_cons, ih, lookup_declare, Option.or_assoc, List.findSome?_cons]
      cases List.lookup name (ownProperties m) <;> rfl
  exact hfold []

/-- **Up to the model where a search stops, a climb that goes on comes to the same.** -/
theorem findSome?_lineageOf {α : Type} (files : FileSystem) (v : View) (f : Value → Option α) (g : Graph)
    (seen : List Location) (pending : List Value) :
    (lineageOf files v (fun m => (f m).isSome) g seen pending).1.findSome? f
      = (lineageOf files v (fun _ => false) g seen pending).1.findSome? f := by
  fun_induction lineageOf files v (fun m => (f m).isSome) g seen pending with
  | case1 g seen => rw [lineageOf]
  | case2 g seen value pending seen' after hfound ih =>
    rw [lineageOf_cons, hfound, ih]
    rfl
  | case3 g seen value pending model seen' after hfound hstop =>
    obtain ⟨x, hx⟩ := Option.isSome_iff_exists.mp hstop
    rw [lineageOf_cons, hfound, lineageAfter, if_neg Bool.false_ne_true, List.findSome?_cons_of_isSome hstop,
      List.findSome?_cons_of_isSome hstop]
  | case4 g seen value pending model seen' after hfound hstop models final hrest ih =>
    have hnone := Option.not_isSome_iff_eq_none.mp hstop
    rw [hrest] at ih
    rw [lineageOf_cons, hfound, lineageAfter, if_neg Bool.false_ne_true, List.findSome?_cons, List.findSome?_cons,
      hnone]
    exact ih

theorem property?_eq_lookup_properties (files : FileSystem) (v : View) (g : Graph) (model : Value) (name : String) :
    (v.property? files g model name).1 = List.lookup name (v.properties files g model).1 := by
  have hfirst := lookup_foldl_declare name (v.lineage files (fun _ => false) g model).1
  exact (findSome?_lineageOf files v (fun m => List.lookup name (ownProperties m)) g [] [model]).trans hfirst.symm

/-- **Looking for a property finds what is collected under its name**, whatever was loaded before either of the two, and
the climbs for both of them end. -/
theorem property_agrees (files : FileSystem) (v : View) (g : Graph) (model : Value) (name : String) :
    (∀ stop, ∃ models stopped b, Climbs files v stop ⟨[], g⟩ [model] models stopped b ∧
      v.lineage files stop g model = (models, b.graph)) ∧
    (v.property? files g model name).1 = List.lookup name (v.properties files g model).1 ∧
    (g.Consistent → ∀ g₁ g₂, Grows files g g₁ → Grows files g g₂ →
      (v.property? files g₁ model name).1 = List.lookup name (v.properties files g₂ model).1) := by
  have hsame := property?_eq_lookup_properties files v g model name
  refine ⟨fun stop => ?ends, hsame, fun hg g₁ g₂ hg₁ hg₂ => ?later⟩
  case ends =>
    obtain ⟨models, stopped, b, hclimbs⟩ := exists_climbs files v stop ⟨[], g⟩ [model]
    exact ⟨models, stopped, b, hclimbs, hclimbs.lineageOf_eq⟩
  case later =>
    have hone : (v.property? files g₁ model name).1 = (v.property? files g model name).1 :=
      (settled_property? hg v model name).same g₁ hg₁
    have hall : (v.properties files g₂ model).1 = (v.properties files g model).1 :=
      (settled_properties hg v model).same g₂ hg₂
    rw [hone, hall, hsame]

/-- Two models inherit from each other, one of them from itself, and one of the references leads nowhere.  The name `y`
is declared twice among the models above `C`. -/
theorem property_agrees_in_circles : ∃ files v g g' model, g.Consistent ∧ Grows files g g' ∧
    ((v.properties files g model).1.map Prod.fst = ["x", "y"]) ∧
    ((v.property? files g' model "y").1.bind Value.string? = some "beside") ∧
    (∀ stop, ∃ models stopped b, Climbs files v stop ⟨[], g⟩ [model] models stopped b ∧
      v.lineage files stop g model = (models, b.graph)) ∧
    (v.property? files g model "y").1 = List.lookup "y" (v.properties files g model).1 ∧
    (g.Consistent → ∀ g₁ g₂, Grows files g g₁ → Grows files g g₂ →
      (v.property? files g₁ model "y").1 = List.lookup "y" (v.properties files g₂ model).1) := by
  let files : FileSystem := ⟨[(⟨"/a"⟩,
    "\x7b\"A\":\x7b\"properties\":\x7b\"y\":\"above\"\x7d\x7d," ++
      "\"B\":\x7b\"allOf\":[\x7b\"$ref\":\"#/C\"\x7d,\x7b\"$ref\":\"#/A\"\x7d]," ++
        "\"properties\":\x7b\"x\":1\x7d\x7d," ++
      "\"C\":\x7b\"allOf\":[\x7b\"$ref\":\"#/B\"\x7d,\x7b\"$ref\":\"#/C\"\x7d,\x7b\"$ref\":\"#/n\"\x7d," ++
        "\x7b\"properties\":\x7b\"y\":\"beside\"\x7d\x7d]\x7d\x7d")],
    fun _ => "no such file"⟩
  have hempty : (Graph.empty ⟨"/"⟩).Consistent := Graph.consistent_empty (by decide +kernel)
  have hloading := hempty.loading files ⟨"a"⟩
  have hfacts : ∃ root ∈ (Graph.load files (.empty ⟨"/"⟩) ⟨"a"⟩).1.toOption,
      ∃ model ∈ root.document.valueAt? [.key "C"],
        ∃ r ∈ lineageWithin files ⟨root, []⟩ 20 (Graph.load files (.empty ⟨"/"⟩) ⟨"a"⟩).2 [] [model],
          ((r.1.map ownProperties).foldl declare []).map Prod.fst = ["x", "y"] ∧
            (List.lookup "y" ((r.1.map ownProperties).foldl declare [])).bind Value.string? = some "beside" := by
    decide +kernel
  obtain ⟨root, -, model, -, r, hr, hnames, hvalue⟩ := hfacts
  have hconsistent := hloading.toGrows.consistent
  have hgrows := (hconsistent.loading files ⟨"b"⟩).toGrows
  have hagrees := property_agrees files ⟨root, []⟩ (Graph.load files (.empty ⟨"/"⟩) ⟨"a"⟩).2 model "y"
  rw [← names_of_within hr] at hnames hvalue
  rw [← hagrees.2.2 hconsistent _ _ hgrows (.refl files hconsistent)] at hvalue
  exact ⟨files, ⟨root, []⟩, _, _, model, hconsistent, hgrows, hnames, hvalue, hagrees⟩

end View

end ApiLint
