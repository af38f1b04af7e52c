import ApiLint.Proofs.Graph.Answers
import ApiLint.Proofs.View.Gathering

/-!
# Views stay as they are

What a view is made of depends on the documents that are loaded, and these are the same whatever was loaded before.
Only the room that gathering has differs with the graph.  It is always enough: the documents gathered are loaded under
different ids, and of these there are no more than entries and files (`Graph.Consistent.length_le_of_yields`), so that
two gatherings with different room come to the same (`gather_eq`).  Hence `settled_ofDocument`.
-/

namespace ApiLint

open ApiLint.Graph (Grows Settled Yields)

variable {files : FileSystem} {g₀ : Graph}

/-- Documents that would be loaded can be loaded one after another. -/
theorem Graph.Consistent.exists_grows_holds (hg₀ : g₀.Consistent) {ls : List Loaded}
    (hls : ∀ l ∈ ls, g₀.Yields files l) : ∃ g, Grows files g₀ g ∧ ∀ l ∈ ls, g.Holds l := by
  induction ls with
  | nil => exact ⟨g₀, .refl files hg₀, fun l hl => absurd hl List.not_mem_nil⟩
  | cons l ls ih =>
    obtain ⟨g, hg, hheld⟩ := ih fun l' hl' => hls l' (List.mem_cons_of_mem l hl')
    have hload := hg.consistent.loading files l.id
    refine ⟨_, hg.trans hload.toGrows, fun l' hl' => ?_⟩
    rcases List.mem_cons.mp hl' with rfl | hl'
    · exact hload.holds l' ((hls l' (List.mem_cons_self ..)).grows hg₀ hg)
    · exact (hheld l' hl').extend hload.toExtends

/-- Documents that are loaded under different ids were there before or lie in different files. -/
theorem Graph.Consistent.length_le_of_yields (hg₀ : g₀.Consistent) {ls : List Loaded}
    (hnodup : (ls.map Loaded.id).Nodup) (hls : ∀ l ∈ ls, g₀.Yields files l) :
    ls.length ≤ files.files.length + g₀.entries.length := by
  obtain ⟨g, hg, hheld⟩ := hg₀.exists_grows_holds hls
  have hle := hg.length_le hnodup fun id hid => by
    obtain ⟨l, hl, rfl⟩ := List.mem_map.mp hid
    exact ⟨l.document, (hheld l hl).document⟩
  rwa [List.length_map] at hle

namespace View

def loadMore (files : FileSystem) (present : List DocumentId) (rest : List Edge) :
    Except LoadError Loaded → Graph → List Loaded × Graph
  | .error _, g => loadTargets files present rest g
  | .ok d, g => (d :: (loadTargets files present rest g).1, (loadTargets files present rest g).2)

theorem loadTargets_cons {present : List DocumentId} {e : Edge} (h : e.target.document ∉ present)
    (files : FileSystem) (rest : List Edge) (g : Graph) :
    loadTargets files present (e :: rest) g =
      loadMore files present rest (g.load files e.target.document).1 (g.load files e.target.document).2 := by
  rw [loadTargets, if_neg h]
  cases g.load files e.target.document with
  | mk answer after => cases answer <;> rfl

theorem settled_loadTargets (hg₀ : g₀.Consistent) (files : FileSystem) (present : List DocumentId)
    (edges : List Edge) : Settled files g₀ (loadTargets files present edges) := by
  induction edges with
  | nil => exact .pure files g₀ []
  | cons e edges ih =>
    by_cases hpresent : e.target.document ∈ present
    · have hskip : loadTargets files present (e :: edges) = loadTargets files present edges := by
        funext g
        rw [loadTargets, if_pos hpresent]
      rw [hskip]
      exact ih
    · refine .bind hg₀ (Graph.settled_load hg₀ files e.target.document) (loadTargets_cons hpresent files edges) ?_
      cases (g₀.load files e.target.document).1 with
      | error _ => exact ih
      | ok d => exact ih.map (f := (d :: ·))

theorem yields_of_mem_loadTargets (hg₀ : g₀.Consistent) {g : Graph} (hg : Grows files g₀ g)
    (present : List DocumentId) (edges : List Edge) {l : Loaded}
    (h : l ∈ (loadTargets files present edges g).1) : g₀.Yields files l := by
  induction edges generalizing g with
  | nil => exact absurd h List.not_mem_nil
  | cons e edges ih =>
    rw [loadTargets] at h
    by_cases hpresent : e.target.document ∈ present
    · rw [if_pos hpresent] at h
      exact ih hg h
    · rw [if_neg hpresent] at h
      have hload := (Graph.settled_load hg₀ files e.target.document).grows g hg
      have hsame := (Graph.settled_load hg₀ files e.target.document).same g hg
      cases hanswer : g.load files e.target.document with
      | mk answer after =>
        rw [hanswer] at h hload hsame
        cases answer with
        | error _ => exact ih (hg.trans hload) h
        | ok d =>
          rcases List.mem_cons.mp h with rfl | h
          · exact Graph.yields_of_load hg₀ hsame.symm
          · exact ih (hg.trans hload) h

/-- What is gathered and what is pending can be loaded, no document is gathered twice, and in `room` there is enough for
all that there may be. -/
structure HasRoom (files : FileSystem) (g : Graph) (room : Nat) (gathered pending : List Loaded) : Prop where
  yields : ∀ l ∈ gathered ++ pending, g.Yields files l
  nodup : (gathered.map Loaded.id).Nodup
  enough : files.files.length + g.entries.length ≤ room + gathered.length

namespace HasRoom

variable {gathered pending : List Loaded} {d : Loaded} {room : Nat}

theorem skip (h : HasRoom files g₀ room gathered (d :: pending)) : HasRoom files g₀ room gathered pending := by
  refine ⟨fun l hl => h.yields l ?_, h.nodup, h.enough⟩
  rw [List.mem_append] at hl ⊢
  exact hl.imp_right (List.mem_cons_of_mem d)

/-- There is room for one document more. -/
theorem take (hg₀ : g₀.Consistent) (h : HasRoom files g₀ room gathered (d :: pending))
    (hd : d.id ∉ gathered.map Loaded.id) {found : List Loaded} (hfound : ∀ l ∈ found, g₀.Yields files l) :
    ∃ left, room = left + 1 ∧ HasRoom files g₀ left (gathered ++ [d]) (found.reverse ++ pending) := by
  have hall : ((gathered ++ [d]).map Loaded.id).Nodup := by
    rw [List.map_append, List.map_singleton]
    exact h.nodup.append (List.nodup_singleton _) (List.disjoint_singleton.mpr hd)
  have hgathered : ∀ l ∈ gathered ++ [d], g₀.Yields files l := by
    intro l hl
    refine h.yields l ?_
    rw [List.mem_append, List.mem_singleton] at hl
    rw [List.mem_append, List.mem_cons]
    exact hl.imp_right .inl
  have hlength := hg₀.length_le_of_yields hall hgathered
  have henough := h.enough
  rw [List.length_append, List.length_singleton] at hlength
  obtain ⟨left, rfl⟩ : ∃ n, room = n + 1 := ⟨room - 1, by omega⟩
  refine ⟨left, rfl, fun l hl => ?_, hall, ?_⟩
  · rcases List.mem_append.mp hl with hl | hl
    · exact hgathered l hl
    · rcases List.mem_append.mp hl with hl | hl
      · exact hfound l (List.mem_reverse.mp hl)
      · exact h.yields l (List.mem_append_right _ (List.mem_cons_of_mem d hl))
  · rw [List.length_append, List.length_singleton]
    omega

/-- The room for the view of a document. -/
theorem start {g : Graph} {root : Loaded} {found : List Loaded} (hg : Grows files g₀ g) (hroot : g₀.Yields files root)
    (hfound : ∀ l ∈ found, g₀.Yields files l) :
    HasRoom files g₀ (files.files.length + g.entries.length) [root] found.reverse := by
  have hentries : g₀.entries.length ≤ g.entries.length := by
    have hle := hg.toExtends.outcomes.length_le
    rwa [Graph.outcomes, Graph.outcomes, List.length_map, List.length_map] at hle
  refine ⟨fun l hl => ?_, List.nodup_singleton _, Nat.le_add_right_of_le (Nat.add_le_add_left hentries _)⟩
  rw [List.mem_append, List.mem_singleton, List.mem_reverse] at hl
  rcases hl with rfl | hl
  · exact hroot
  · exact hfound l hl

end HasRoom

/-- **Gathering does not depend on the graph, nor on the room it has**, as long as it has enough. -/
theorem gather_eq (hg₀ : g₀.Consistent) {g h : Graph} (hg : Grows files g₀ g) (hh : Grows files g₀ h)
    {gathered pending : List Loaded} {room room' : Nat} (hroom : HasRoom files g₀ room gathered pending)
    (hroom' : HasRoom files g₀ room' gathered pending) :
    (gather files room gathered pending g).1 = (gather files room' gathered pending h).1 ∧
      Grows files g (gather files room gathered pending g).2 := by
  cases pending with
  | nil =>
    rw [gather.eq_def, gather.eq_def files room']
    exact ⟨rfl, .refl files hg.consistent⟩
  | cons d pending =>
    rw [gather.eq_def, gather.eq_def files room']
    dsimp only
    by_cases hd : d.id ∈ gathered.map Loaded.id
    · rw [if_pos hd, if_pos hd]
      exact gather_eq hg₀ hg hh hroom.skip hroom'.skip
    · rw [if_neg hd, if_neg hd]
      have htargets := settled_loadTargets hg₀ files (d.id :: gathered.map Loaded.id) d.references.edges
      have hgrown := htargets.grows g hg
      have hgrown' := htargets.grows h hh
      have hfound := fun l => yields_of_mem_loadTargets (l := l) hg₀ hg (d.id :: gathered.map Loaded.id)
        d.references.edges
      obtain ⟨room, rfl, hleft⟩ := hroom.take hg₀ hd hfound
      obtain ⟨room', rfl, hleft'⟩ := hroom'.take hg₀ hd hfound
      dsimp only
      obtain ⟨hsame, hgrows⟩ := gather_eq hg₀ (hg.trans hgrown) (hh.trans hgrown') hleft hleft'
      refine ⟨?_, hgrown.trans hgrows⟩
      rw [hsame, htargets.same g hg, htargets.same h hh]
termination_by (room, pending.length)

theorem settled_ofLoaded (hg₀ : g₀.Consistent) {root : Loaded} (hroot : g₀.Yields files root) :
    Settled files g₀ fun g => ofLoaded files g root := by
  have htargets := settled_loadTargets hg₀ files [root.id] root.references.edges
  have hrun : ∀ g, Grows files g₀ g → Grows files g (ofLoaded files g root).2 ∧
      (ofLoaded files g root).1 = (ofLoaded files g₀ root).1 := by
    intro g hg
    have hfound := htargets.same g hg
    have hgrown := htargets.grows g hg
    have hgrown₀ := htargets.grows g₀ (.refl files hg₀)
    have hyields : ∀ l ∈ (loadTargets files [root.id] root.references.edges g₀).1, g₀.Yields files l :=
      fun l => yields_of_mem_loadTargets hg₀ (.refl files hg₀) _ _
    rw [ofLoaded, ofLoaded]
    cases hnext : loadTargets files [root.id] root.references.edges g with
    | mk found next =>
      cases hnext₀ : loadTargets files [root.id] root.references.edges g₀ with
      | mk found₀ next₀ =>
        rw [hnext, hnext₀] at hfound
        rw [hnext] at hgrown
        rw [hnext₀] at hgrown₀ hyields
        obtain rfl : found = found₀ := hfound
        obtain ⟨hsame, hgrows⟩ := gather_eq hg₀ (hg.trans hgrown) hgrown₀ (.start hg hroot hyields)
          (.start (.refl files hg₀) hroot hyields)
        exact ⟨hgrown.trans hgrows, congrArg (fun ds => View.mk root (ds.drop 1)) hsame⟩
  exact ⟨fun g hg => (hrun g hg).1, fun g hg => (hrun g hg).2⟩

theorem settled_ofDocument (hg₀ : g₀.Consistent) (files : FileSystem) (id : DocumentId) :
    Settled files g₀ fun g => ofDocument files g id :=
  .of_load hg₀ id (fun _ => rfl) fun _ hroot => (settled_ofLoaded hg₀ hroot).map

end View

end ApiLint
