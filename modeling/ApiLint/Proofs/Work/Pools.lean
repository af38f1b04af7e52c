import ApiLint.Pool
import ApiLint.Proofs.Work.Logic
import Mathlib.Logic.Hydra

/-!
# Whoever does the work, and in whatever order

A step of a pool replaces one of its jobs by a smaller one, so steps come to an end (`Pool.wellFounded_step`).  What they
preserve is `Pool.Ongoing`: each job meets what is asked of it, and whatever is being resolved, some job is resolving it.
A job that resolves references does not wait.  Hence nobody waits for ever (`Ongoing.goes`), and at the end there is what was
asked for (`Pool.inevitable_jobs`).
-/

namespace ApiLint

open ApiLint.Graph (Grows)

/-- Whichever steps are taken, `P` comes about. -/
inductive Inevitable {σ : Type} (R : σ → σ → Prop) (P : σ → Prop) : σ → Prop
  | now {c : σ} : P c → Inevitable R P c
  | later {c : σ} : (∃ d, R c d) → (∀ d, R c d → Inevitable R P d) → Inevitable R P c

namespace Inevitable

variable {σ τ : Type} {R : σ → σ → Prop} {S : τ → τ → Prop} {P I : σ → Prop} {Q : τ → Prop} {c d : σ}

theorem of_invariant (hwf : WellFounded fun d c => R c d) (hkept : ∀ c d, I c → R c d → I d)
    (hgoes : ∀ c, I c → P c ∨ ∃ d, R c d) (hc : I c) : Inevitable R P c := by
  induction c using hwf.induction with
  | _ c ih =>
    rcases hgoes c hc with hp | hnext
    · exact .now hp
    · exact .later hnext fun d hd => ih d hd (hkept c d hc hd)

theorem exists_steps (h : Inevitable R P c) : ∃ d, Relation.ReflTransGen R c d ∧ P d := by
  induction h with
  | @now c hp => exact ⟨c, .refl, hp⟩
  | later hnext _ ih =>
    obtain ⟨d, hd⟩ := hnext
    obtain ⟨e, hsteps, hp⟩ := ih d hd
    exact ⟨e, .head hd hsteps, hp⟩

/-- If steps come to an end as soon as `P` has come about, then where they end `P` holds. -/
theorem of_steps (h : Inevitable R P c) (hlast : ∀ d, P d → ∀ e, ¬R d e) (hsteps : Relation.ReflTransGen R c d)
    (hend : ∀ e, ¬R d e) : P d := by
  induction h with
  | @now c hp =>
    rcases hsteps.cases_head with rfl | ⟨e, he, -⟩
    · exact hp
    · exact absurd he (hlast c hp e)
  | @later c hnext _ ih =>
    rcases hsteps.cases_head with rfl | ⟨e, he, hsteps⟩
    · obtain ⟨e, he⟩ := hnext
      exact absurd he (hend e)
    · exact ih e he hsteps

/-- What comes about in a part of a system comes about in the system, if until then only the part makes steps. -/
theorem lift (h : Inevitable R P c) (whole : σ → τ) (hstep : ∀ c d, R c d → S (whole c) (whole d))
    (hpart : ∀ c d e, R c d → S (whole c) e → ∃ d', e = whole d' ∧ R c d')
    (hp : ∀ c, P c → Inevitable S Q (whole c)) : Inevitable S Q (whole c) := by
  induction h with
  | now h => exact hp _ h
  | @later c hnext _ ih =>
    obtain ⟨d, hd⟩ := hnext
    refine .later ⟨_, hstep c d hd⟩ fun e he => ?_
    obtain ⟨d', rfl, hd'⟩ := hpart c d e hd he
    exact ih d' hd'

theorem mono {P' : σ → Prop} (h : Inevitable R P c) (hp : ∀ d, P d → P' d) : Inevitable R P' c :=
  h.lift id (fun _ _ hstep => hstep) (fun _ _ e _ he => ⟨e, rfl, he⟩) fun _ hd => .now (hp _ hd)

end Inevitable

variable {α β : Type}

namespace Job

inductive Follows : Job α → Job α → Prop
  | start (w : Work α) : Follows (.started w) (.waiting w)
  | act (ready : Shared → Bool) (effect : Shared → Shared) (next : Shared → Work α) (s : Shared) :
    Follows (.started (next s)) (.started (.act ready effect next))

theorem wellFounded_follows : WellFounded (Follows (α := α)) := by
  have hstarted : ∀ w : Work α, Acc Follows (.started w) := by
    intro w
    induction w with
    | done a => exact ⟨_, fun j hj => nomatch hj⟩
    | act ready effect next ih =>
      refine ⟨_, fun j hj => ?_⟩
      cases hj with
      | act _ _ _ s => exact ih s
  refine ⟨fun j => ?_⟩
  cases j with
  | started w => exact hstarted w
  | waiting w =>
    refine ⟨_, fun j hj => ?_⟩
    cases hj with
    | start => exact hstarted w

theorem map_finished_injective : Function.Injective (List.map (Job.finished (α := α))) :=
  List.map_injective_iff.mpr fun _ _ h => Work.done.inj (Job.started.inj h)

end Job

/-- A job, the document whose references it resolves at the moment, and what it is to ensure. -/
structure Task (α : Type) where
  job : Job α
  cell : Option DocumentId
  post : α → Graph → Prop

inductive Task.Meets (files : FileSystem) (g : Graph) : Task α → Prop
  | waiting {w : Work α} {post : α → Graph → Prop} : w.Ensures files g post → Meets files g ⟨.waiting w, none, post⟩
  | started {w : Work α} {cell : Option DocumentId} {post : α → Graph → Prop} :
    w.Meets files (fun a h cell => cell = none ∧ post a h) g cell → Meets files g ⟨.started w, cell, post⟩

theorem Task.Meets.of_grows {files : FileSystem} {g h : Graph} {t : Task α} (ht : t.Meets files g)
    (hgh : Grows files g h) : t.Meets files h := by
  cases ht with
  | waiting hw => exact .waiting (hw.of_grows hgh)
  | started hw => exact .started (hw.of_grows hgh)

namespace Pool

variable {pool : Pool} {files : FileSystem} {g : Graph}

/-! ### Steps come to an end -/

theorem wellFounded_step (pool : Pool) : WellFounded fun d c : List (Job α) × Shared => pool.Step c d := by
  -- the jobs as a multiset, of which a step cuts out one and puts in a smaller one
  have hjobs := InvImage.wf (fun c : List (Job α) × Shared => (c.1 : Multiset (Job α)))
    Job.wellFounded_follows.cutExpand
  have hreplace : ∀ {before after : List (Job α)} {j j' : Job α}, j'.Follows j →
      Relation.CutExpand Job.Follows ((before ++ j' :: after : List (Job α)) : Multiset (Job α))
        ((before ++ j :: after : List (Job α)) : Multiset (Job α)) := by
    intro before after j j' hfollows
    rw [← Multiset.coe_add, ← Multiset.coe_add, ← Multiset.cons_coe, ← Multiset.cons_coe, ← Multiset.singleton_add,
      ← Multiset.singleton_add]
    exact (Relation.cutExpand_add_left _).mpr (Relation.cutExpand_single_add hfollows _)
  refine Subrelation.wf (fun {d c} hstep => ?_) hjobs
  cases hstep with
  | start _ => exact hreplace (.start _)
  | act _ => exact hreplace (.act ..)

/-! ### What steps preserve -/

/-- The tasks meet what is asked of them, and what is being resolved is resolved by one of them. -/
structure Ongoing (files : FileSystem) (tasks : List (Task α)) (s : Shared) : Prop where
  consistent : s.graph.Consistent
  met : ∀ t ∈ tasks, t.Meets files s.graph
  resolving : ∀ id ∈ s.resolving, ∃ t ∈ tasks, t.cell = some id

namespace Ongoing

variable {tasks before after : List (Task α)} {t t' : Task α} {s s' : Shared}

/-- One task goes on, and the others stay as they are. -/
theorem replace (h : Ongoing files (before ++ t :: after) s) (hgrows : Grows files s.graph s'.graph)
    (ht' : t'.Meets files s'.graph)
    (hcells : ∀ id ∈ s'.resolving, t'.cell = some id ∨ id ∈ s.resolving ∧ t.cell ≠ some id) :
    Ongoing files (before ++ t' :: after) s' := by
  refine ⟨hgrows.consistent, fun u hu => ?_, fun id hid => ?_⟩
  · rcases List.mem_append.mp hu with hu | hu
    · exact (h.met u (List.mem_append_left _ hu)).of_grows hgrows
    · rcases List.mem_cons.mp hu with rfl | hu
      · exact ht'
      · exact (h.met u (List.mem_append_right _ (List.mem_cons_of_mem t hu))).of_grows hgrows
  · rcases hcells id hid with hown | ⟨hid, hne⟩
    · exact ⟨t', List.mem_append_right _ (List.mem_cons_self ..), hown⟩
    · obtain ⟨u, hu, hcell⟩ := h.resolving id hid
      refine ⟨u, ?_, hcell⟩
      rcases List.mem_append.mp hu with hu | hu
      · exact List.mem_append_left _ hu
      · rcases List.mem_cons.mp hu with rfl | hu
        · exact absurd hcell hne
        · exact List.mem_append_right _ (List.mem_cons_of_mem t' hu)

theorem step (h : Ongoing files tasks s) {d : List (Job α) × Shared} (hstep : pool.Step (tasks.map Task.job, s) d) :
    ∃ tasks', d.1 = tasks'.map Task.job ∧ Ongoing files tasks' d.2 ∧ tasks'.map Task.post = tasks.map Task.post ∧
      Grows files s.graph d.2.graph := by
  have hrefl := Grows.refl files h.consistent
  generalize hjobs : tasks.map Task.job = jobs at hstep
  cases hstep with
  | @start _ _ w _ _ =>
    obtain ⟨before, rest, rfl, rfl, hrest⟩ := List.map_eq_append_iff.mp hjobs
    obtain ⟨t, after, rfl, hjob, rfl⟩ := List.map_eq_cons_iff.mp hrest
    cases h.met t (List.mem_append_right _ (List.mem_cons_self ..)) with
    | started hw => cases hjob
    | @waiting _ post hw =>
      cases hjob
      refine ⟨before ++ ⟨.started w, none, post⟩ :: after, ?_,
        h.replace hrefl (.started hw) fun id hid => .inr ⟨hid, nofun⟩, ?_, hrefl⟩
      · rw [List.map_append, List.map_cons]
      · rw [List.map_append, List.map_append, List.map_cons, List.map_cons]
  | @act _ _ _ _ next _ hready =>
    obtain ⟨before, rest, rfl, rfl, hrest⟩ := List.map_eq_append_iff.mp hjobs
    obtain ⟨t, after, rfl, hjob, rfl⟩ := List.map_eq_cons_iff.mp hrest
    cases h.met t (List.mem_append_right _ (List.mem_cons_self ..)) with
    | waiting hw => cases hjob
    | @started w cell post hw =>
      cases hjob
      cases hw with
      | act cell' ho hnext =>
        refine ⟨before ++ ⟨.started (next s), cell' s, post⟩ :: after, ?_, h.replace (ho.grows s hrefl hready)
          (.started (hnext s hrefl hready)) (ho.cells s hrefl hready), ?_, ho.grows s hrefl hready⟩
        · rw [List.map_append, List.map_cons]
        · rw [List.map_append, List.map_append, List.map_cons, List.map_cons]

/-! ### Nobody waits for ever -/

theorem resolving_eq_nil (h : Ongoing files tasks s) (hnone : ∀ t ∈ tasks, t.cell = none) : s.resolving = [] := by
  refine List.eq_nil_iff_forall_not_mem.mpr fun id hid => ?_
  obtain ⟨t, ht, hcell⟩ := h.resolving id hid
  rw [hnone t ht] at hcell
  cases hcell

theorem exists_step_of_ready (pool : Pool) (ht : t ∈ tasks) {ready : Shared → Bool} {effect : Shared → Shared}
    {next : Shared → Work α} (hjob : t.job = .started (.act ready effect next)) (hready : ready s = true) :
    ∃ d, pool.Step (tasks.map Task.job, s) d := by
  obtain ⟨before, after, rfl⟩ := List.append_of_mem ht
  rw [List.map_append, List.map_cons, hjob]
  exact ⟨_, .act hready⟩

/-- A task that resolves references can go on with that. -/
theorem exists_step_of_cell (h : Ongoing files tasks s) (pool : Pool) (ht : t ∈ tasks) (hcell : t.cell.isSome = true) :
    ∃ d, pool.Step (tasks.map Task.job, s) d := by
  have hrefl := Grows.refl files h.consistent
  cases h.met t ht with
  | waiting hw => cases hcell
  | started hw =>
    cases hw with
    | done hpost =>
      obtain rfl := (hpost _ hrefl).1
      cases hcell
    | act cell' ho _ => exact exists_step_of_ready pool ht rfl (ho.waits s hrefl (.inl hcell))

/-- A task that waits to be started can be, as long as nothing is underway. -/
theorem exists_step_of_idle (hsize : 0 < pool.size) (hidle : ∀ t ∈ tasks, t.job.isUnderway = false) (ht : t ∈ tasks)
    {w : Work α} (hjob : t.job = .waiting w) : ∃ d, pool.Step (tasks.map Task.job, s) d := by
  obtain ⟨before, after, rfl⟩ := List.append_of_mem ht
  rw [List.map_append, List.map_cons, hjob]
  refine ⟨_, .start (lt_of_eq_of_lt (List.countP_eq_zero.mpr fun j hj => ?_) hsize)⟩
  rw [← List.map_append] at hj
  obtain ⟨u, hu, rfl⟩ := List.mem_map.mp hj
  rw [hidle u (((List.sublist_cons_self t after).append_left before).subset hu)]
  exact Bool.false_ne_true

/-- Every task is done, or there is a step. -/
theorem goes (h : Ongoing files tasks s) (hsize : 0 < pool.size) :
    (∀ t ∈ tasks, t.cell = none ∧ ∃ a, t.job = .finished a ∧ t.post a s.graph) ∨
      ∃ d, pool.Step (tasks.map Task.job, s) d := by
  have hrefl := Grows.refl files h.consistent
  -- who resolves references goes first; if nobody does, no job that is underway has to wait
  by_cases hcell : ∃ t ∈ tasks, t.cell.isSome = true
  · obtain ⟨t, ht, hcell⟩ := hcell
    exact .inr (h.exists_step_of_cell pool ht hcell)
  have hnone : ∀ t ∈ tasks, t.cell = none := fun t ht =>
    Option.not_isSome_iff_eq_none.mp fun hsome => hcell ⟨t, ht, hsome⟩
  have hresolving := h.resolving_eq_nil hnone
  by_cases hunderway : ∃ t ∈ tasks, t.job.isUnderway = true
  · obtain ⟨t, ht, hunderway⟩ := hunderway
    cases h.met t ht with
    | waiting hw => cases hunderway
    | started hw =>
      cases hw with
      | done hpost => cases hunderway
      | act cell' ho _ => exact .inr (exists_step_of_ready pool ht rfl (ho.waits s hrefl (.inr hresolving)))
  have hidle : ∀ t ∈ tasks, t.job.isUnderway = false := fun t ht =>
    Bool.eq_false_iff.mpr fun hunderway' => hunderway ⟨t, ht, hunderway'⟩
  by_cases hwaiting : ∃ t ∈ tasks, ∃ w, t.job = .waiting w
  · obtain ⟨t, ht, w, hjob⟩ := hwaiting
    exact .inr (exists_step_of_idle hsize hidle ht hjob)
  refine .inl fun t ht => ⟨hnone t ht, ?_⟩
  cases h.met t ht with
  | waiting hw => exact absurd ⟨_, ht, _, rfl⟩ hwaiting
  | started hw =>
    cases hw with
    | act cell' ho _ => exact absurd ⟨_, ht, rfl⟩ hunderway
    | done hpost => exact ⟨_, rfl, (hpost _ hrefl).2⟩

end Ongoing

/-! ### What comes of the jobs -/

theorem exists_results {tasks : List (Task α)} (h : ∀ t ∈ tasks, ∃ a, t.job = .finished a ∧ t.post a g) :
    ∃ results, tasks.map Task.job = results.map Job.finished ∧
      List.Forall₂ (fun post a => post a g) (tasks.map Task.post) results := by
  induction tasks with
  | nil => exact ⟨[], rfl, .nil⟩
  | cons t tasks ih =>
    obtain ⟨a, hjob, hpost⟩ := h t (List.mem_cons_self ..)
    obtain ⟨results, hjobs, hposts⟩ := ih fun u hu => h u (List.mem_cons_of_mem t hu)
    exact ⟨a :: results, by rw [List.map_cons, List.map_cons, hjob, hjobs], .cons hpost hposts⟩

/-- The jobs come to an end, whatever steps are taken, and each ensures what it is to ensure. -/
theorem inevitable_results {tasks : List (Task α)} {s : Shared} (hsize : 0 < pool.size) (h : Ongoing files tasks s) :
    Inevitable pool.Step (fun d => Grows files s.graph d.2.graph ∧ d.2.resolving = [] ∧
      ∃ results : List α, d.1 = results.map .finished ∧
        List.Forall₂ (fun post a => post a d.2.graph) (tasks.map Task.post) results) (tasks.map Task.job, s) := by
  refine .of_invariant (I := fun c => ∃ tasks', c.1 = tasks'.map Task.job ∧ Ongoing files tasks' c.2 ∧
    tasks'.map Task.post = tasks.map Task.post ∧ Grows files s.graph c.2.graph) (wellFounded_step pool) ?_ ?_
    ⟨tasks, rfl, h, rfl, .refl files h.consistent⟩
  · rintro ⟨_, s'⟩ d ⟨tasks', rfl, hongoing, hposts, hgrows⟩ hstep
    obtain ⟨next, hjobs, hnext, hsame, hgrown⟩ := hongoing.step hstep
    exact ⟨next, hjobs, hnext, hsame.trans hposts, hgrows.trans hgrown⟩
  · rintro ⟨_, s'⟩ ⟨tasks', rfl, hongoing, hposts, hgrows⟩
    rcases hongoing.goes hsize with hall | hstep
    · refine .inl ⟨hgrows, hongoing.resolving_eq_nil fun t ht => (hall t ht).1, ?_⟩
      rw [← hposts]
      exact exists_results fun t ht => (hall t ht).2
    · exact .inr hstep

theorem not_step_finished (results : List α) (s : Shared) (d : List (Job α) × Shared) :
    ¬pool.Step (results.map .finished, s) d := by
  intro h
  generalize hjobs : results.map Job.finished = jobs at h
  have hall : ∀ j ∈ jobs, ∃ a, j = .finished a := by
    rintro j hj
    obtain ⟨a, -, rfl⟩ := List.mem_map.mp (hjobs ▸ hj)
    exact ⟨a, rfl⟩
  cases h with
  | start _ =>
    obtain ⟨a, ha⟩ := hall _ (List.mem_append_right _ (List.mem_cons_self ..))
    cases ha
  | act _ =>
    obtain ⟨a, ha⟩ := hall _ (List.mem_append_right _ (List.mem_cons_self ..))
    cases ha

theorem flatten_parts (pool : Pool) (xs : List α) : (pool.parts xs).flatten = xs := by
  cases pool with
  | caller => exact List.flatten_singleton
  | workers n =>
    rw [parts.eq_def]
    dsimp only
    split
    · exact List.flatMap_singleton' xs
    · exact List.flatten_singleton

/-- **What is done for each element comes to its end, whoever does it, and in whatever order.** -/
theorem inevitable_jobs (hsize : 0 < pool.size) (hg : g.Consistent) {f : α → Work β} {xs : List α}
    {post : α → β → Graph → Prop} (hf : ∀ x ∈ xs, (f x).Ensures files g (post x)) :
    Inevitable pool.Step (fun d => Grows files g d.2.graph ∧ d.2.resolving = [] ∧
      ∃ results : List (List β), d.1 = results.map .finished ∧
        List.Forall₂ (fun x y => post x y d.2.graph) xs results.flatten) (pool.jobs f xs, ⟨g, []⟩) := by
  let task (part : List α) : Task (List β) :=
    ⟨.waiting (Work.each f part), none, fun ys h => List.Forall₂ (fun x y => post x y h) part ys⟩
  have hmet : ∀ t ∈ (pool.parts xs).map task, t.Meets files g := by
    intro t ht
    obtain ⟨part, hpart, rfl⟩ := List.mem_map.mp ht
    refine .waiting (.each hg fun x hx => hf x ?_)
    rw [← pool.flatten_parts xs]
    exact List.mem_flatten.mpr ⟨part, hpart, hx⟩
  have hresults := inevitable_results hsize (s := ⟨g, []⟩) ⟨hg, hmet, fun _ hid => absurd hid List.not_mem_nil⟩
  rw [List.map_map, List.map_map] at hresults
  refine hresults.mono fun d ⟨hgrows, hresolving, results, hjobs, hposts⟩ => ⟨hgrows, hresolving, results, hjobs, ?_⟩
  have hparts : List.Forall₂ (List.Forall₂ fun x y => post x y d.2.graph) (pool.parts xs) results :=
    (List.forall₂_map_left_iff (f := Task.post ∘ task)).mp hposts
  rw [← pool.flatten_parts xs]
  exact List.rel_flatten hparts

/-! ### A single job -/

theorem eq_of_single {before after : List (Job α)} {i j : Job α} (h : [i] = before ++ j :: after) :
    before = [] ∧ i = j ∧ after = [] := by
  rcases List.singleton_eq_append_iff.mp h with ⟨rfl, h⟩ | ⟨rfl, h⟩
  · cases h
    exact ⟨rfl, rfl, rfl⟩
  · cases h

theorem inevitable_started {w : Work α} {a : α} {s s' : Shared} (h : w.alone s = some (a, s')) :
    Inevitable pool.Step (· = ([.finished a], s')) ([.started w], s) := by
  induction w generalizing s with
  | done b =>
    cases h
    exact .now rfl
  | act ready effect next ih =>
    rw [Work.alone] at h
    split at h
    · next hready =>
      refine .later ⟨_, @Step.act _ _ [] [] _ _ _ _ hready⟩ fun d hd => ?_
      generalize hjobs : [Job.started (.act ready effect next)] = jobs at hd
      cases hd with
      | start _ =>
        obtain ⟨-, hjob, -⟩ := eq_of_single hjobs
        cases hjob
      | act _ =>
        obtain ⟨rfl, hjob, rfl⟩ := eq_of_single hjobs
        cases hjob
        exact ih s h
    · cases h

/-- **A pool with a single job does it alone.** -/
theorem inevitable_alone (hsize : 0 < pool.size) {w : Work α} {a : α} {s s' : Shared} (h : w.alone s = some (a, s')) :
    Inevitable pool.Step (· = ([.finished a], s')) ([.waiting w], s) := by
  refine .later ⟨_, @Step.start _ _ [] [] _ _ hsize⟩ fun d hd => ?_
  generalize hjobs : [Job.waiting w] = jobs at hd
  cases hd with
  | act _ =>
    obtain ⟨-, hjob, -⟩ := eq_of_single hjobs
    cases hjob
  | start _ =>
    obtain ⟨rfl, hjob, rfl⟩ := eq_of_single hjobs
    cases hjob
    exact inevitable_started h

theorem parts_of_alone {xs : List α} (h : pool = .caller ∨ xs.length ≤ 1) : pool.parts xs = [xs] := by
  cases pool with
  | caller => rfl
  | workers n => exact if_neg (Nat.not_lt.mpr (h.resolve_left nofun))

end Pool

end ApiLint
