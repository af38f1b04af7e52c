import ApiLint.Model
import ApiLint.Proofs.Graph.Chains

/-!
# What is looked up over references is settled

From the viewed document a reference is located, its chain is followed, and so the properties of a model are looked up.
Each of these may load documents.  Loading is settled, hence so is all of it: the value that a schema stands for
(`View.settled_target?`), and a lineage with the properties read off it (`View.settled_properties`,
`View.settled_property?`).
-/

namespace ApiLint

open ApiLint.Graph (Settled)

variable {files : FileSystem} {g₀ : Graph}

theorem Graph.settled_locate (hg₀ : g₀.Consistent) (files : FileSystem) (source : Document) (origin : Path)
    (reference : String) : Settled files g₀ fun g => g.locate files source origin reference := by
  refine ⟨fun g hg => (asks_locate hg.consistent.absolute files source (origin, reference)).grows hg.consistent,
    fun g hg => ?_⟩
  rw [locate_eq, locate_eq, hg.toExtends.target?]
  cases g₀.target? source reference with
  | none => rfl
  | some id =>
    have hsame := (settled_loadParsed hg₀ files id).same g hg
    exact congrArg (fun o => designated source origin reference (some (id, o))) hsame

namespace View

theorem settled_followTarget (hg₀ : g₀.Consistent) (v : View) (target : Location) :
    Settled files g₀ fun g => v.followTarget files g target :=
  .of_load hg₀ target.document (fun _ => rfl) fun _ hsource => Graph.settled_followLoaded hg₀ hsource target.path

theorem settled_resolve (hg₀ : g₀.Consistent) (v : View) (reference : String) :
    Settled files g₀ fun g => v.resolve files g reference := by
  refine .bind hg₀ (Graph.settled_locate hg₀ files v.root.document [] reference)
    (k := fun found g => match found with
      | .error e => (.unresolved e, g)
      | .ok target => v.followTarget files g target) (fun g => ?_) ?_
  · rw [resolve]
    cases g.locate files v.root.document [] reference with
    | mk found after => cases found <;> rfl
  · cases (g₀.locate files v.root.document [] reference).1 with
    | error e => exact .pure files g₀ _
    | ok target => exact settled_followTarget hg₀ v target

def landed (v : View) (seen : List Location) : Resolution → Option Value × List Location
  | .resolved d p =>
    if ⟨d.id, p⟩ ∈ seen then (none, seen) else (v.valueAt? ⟨d.id, p⟩, ⟨d.id, p⟩ :: seen)
  | _ => (none, seen)

theorem dereference_of_reference {value : Value} {r : String} (hr : value.reference? = some r) (v : View)
    (g : Graph) (seen : List Location) :
    v.dereference files g seen value = ((v.landed seen (v.resolve files g r).1).1,
      (v.landed seen (v.resolve files g r).1).2, (v.resolve files g r).2) := by
  cases hresolve : v.resolve files g r with
  | mk resolution after =>
    simp only [dereference, hr, hresolve]
    cases resolution with
    | resolved d p => by_cases hseen : ⟨d.id, p⟩ ∈ seen <;> simp only [landed, hseen, if_true, if_false]
    | cycle | unresolved => rfl

theorem settled_dereference (hg₀ : g₀.Consistent) (files : FileSystem) (v : View) (seen : List Location)
    (value : Value) :
    Settled files g₀ fun g =>
      (((v.dereference files g seen value).1, (v.dereference files g seen value).2.1),
        (v.dereference files g seen value).2.2) := by
  cases hr : value.reference? with
  | none =>
    simp only [dereference, hr]
    exact .pure files g₀ _
  | some r =>
    simp only [dereference_of_reference hr]
    exact (settled_resolve hg₀ v r).map (f := v.landed seen)

theorem settled_target? (hg₀ : g₀.Consistent) (v : View) (value : Value) :
    Settled files g₀ fun g => v.target? files g value :=
  (settled_dereference hg₀ files v [] value).map (f := Prod.fst)

def lineageAfter (files : FileSystem) (v : View) (stop : Value → Bool) (pending : List Value) :
    Option Value × List Location → Graph → List Value × Graph
  | (none, seen), g => lineageOf files v stop g seen pending
  | (some model, seen), g =>
    if stop model then ([model], g)
    else (model :: (lineageOf files v stop g seen (parents model ++ pending)).1,
      (lineageOf files v stop g seen (parents model ++ pending)).2)

theorem lineageOf_cons (files : FileSystem) (v : View) (stop : Value → Bool) (g : Graph) (seen : List Location)
    (value : Value) (pending : List Value) :
    lineageOf files v stop g seen (value :: pending) = lineageAfter files v stop pending
      ((v.dereference files g seen value).1, (v.dereference files g seen value).2.1)
      (v.dereference files g seen value).2.2 := by
  rw [lineageOf]
  split
  · next hfound => simp only [lineageAfter, hfound]
  · next hfound => simp only [lineageAfter, hfound]

theorem settled_lineageOf (hg₀ : g₀.Consistent) (v : View) (stop : Value → Bool) (seen : List Location)
    (pending : List Value) : Settled files g₀ fun g => lineageOf files v stop g seen pending := by
  cases pending with
  | nil =>
    simp only [lineageOf]
    exact .pure files g₀ []
  | cons value pending =>
    refine .bind hg₀ (settled_dereference hg₀ files v seen value)
      (fun g => lineageOf_cons files v stop g seen value pending) ?_
    cases hfound : v.dereference files g₀ seen value with
    | mk found rest =>
      obtain ⟨seen', after⟩ := rest
      cases found with
      | none => exact settled_lineageOf hg₀ v stop seen' pending
      | some model =>
        by_cases hstop : stop model = true
        · have hends : lineageAfter files v stop pending (some model, seen') = fun g => ([model], g) := by
            funext g
            exact if_pos hstop
          rw [hends]
          exact .pure files g₀ [model]
        · have hmore : lineageAfter files v stop pending (some model, seen') = fun g =>
              (model :: (lineageOf files v stop g seen' (parents model ++ pending)).1,
                (lineageOf files v stop g seen' (parents model ++ pending)).2) := by
            funext g
            exact if_neg hstop
          rw [hmore]
          exact (settled_lineageOf hg₀ v stop seen' (parents model ++ pending)).map
termination_by ((v.unseen seen).length, sizes pending)
decreasing_by
  · have hpos := value.sizeOf_pos
    rcases dereference_progress hfound with hlt | ⟨hle, -⟩
    · exact Prod.Lex.left _ _ hlt
    · refine lex_of_le hle ?_
      simp only [sizes]
      omega
  · have hparents := sizes_parents_lt model
    rcases dereference_progress hfound with hlt | ⟨hle, hnone | hself⟩
    · exact Prod.Lex.left _ _ hlt
    · cases hnone
    · cases hself
      refine lex_of_le hle ?_
      simp only [sizes_append, sizes]
      omega

theorem settled_properties (hg₀ : g₀.Consistent) (v : View) (model : Value) :
    Settled files g₀ fun g => v.properties files g model :=
  (settled_lineageOf hg₀ v (fun _ => false) [] [model]).map
    (f := fun models => (models.map ownProperties).foldl declare [])

theorem settled_property? (hg₀ : g₀.Consistent) (v : View) (model : Value) (name : String) :
    Settled files g₀ fun g => v.property? files g model name :=
  (settled_lineageOf hg₀ v (fun m => (List.lookup name (ownProperties m)).isSome) [] [model]).map
    (f := fun models => models.findSome? fun m => List.lookup name (ownProperties m))

end View

end ApiLint
