import Mathlib.Data.List.Basic

/-!
# First occurrences

`List.eraseDups` keeps of every member of a list the first occurrence.  Adding members one after another, each unless
it is there, comes to the same (`foldl_unless_mem`).
-/

namespace ApiLint

section

variable {κ : Type} [BEq κ]

theorem eraseDups_sublist (xs : List κ) : xs.eraseDups.Sublist xs := by
  cases xs with
  | nil => exact List.Sublist.refl _
  | cons x xs =>
    have hshorter := List.length_filter_le (fun b => !b == x) xs
    rw [List.eraseDups_cons]
    exact ((eraseDups_sublist _).trans List.filter_sublist).cons_cons x
termination_by xs.length
decreasing_by rw [List.length_cons]; omega

variable [LawfulBEq κ]

theorem nodup_eraseDups (xs : List κ) : xs.eraseDups.Nodup := by
  cases xs with
  | nil => exact List.nodup_nil
  | cons x xs =>
    have hshorter := List.length_filter_le (fun b => !b == x) xs
    rw [List.eraseDups_cons, List.nodup_cons]
    refine ⟨fun hx => ?_, nodup_eraseDups _⟩
    have hkept := (List.mem_filter.mp (List.mem_eraseDups.mp hx)).2
    simp at hkept
termination_by xs.length
decreasing_by rw [List.length_cons]; omega

theorem eraseDups_of_nodup {xs : List κ} (h : xs.Nodup) : xs.eraseDups = xs := by
  induction xs with
  | nil => rfl
  | cons x xs ih =>
    rw [List.nodup_cons] at h
    have hothers : (xs.filter fun y => !y == x) = xs :=
      List.filter_eq_self.mpr fun y hy => by simpa using fun heq : y = x => h.1 (heq ▸ hy)
    rw [List.eraseDups_cons, hothers, ih h.2]

end

section

variable {α κ : Type} [DecidableEq κ]

/-- Adding what is not there yet, one after another, adds the first occurrences. -/
theorem foldl_unless_mem (xs there : List κ) :
    xs.foldl (fun there x => if x ∈ there then there else there ++ [x]) there
      = there ++ (xs.filter fun x => x ∉ there).eraseDups := by
  induction xs generalizing there with
  | nil => exact (List.append_nil there).symm
  | cons x xs ih =>
    rw [List.foldl_cons, ih]
    by_cases hx : x ∈ there
    · rw [if_pos hx, List.filter_cons_of_neg (by simpa using hx)]
    · rw [if_neg hx, List.filter_cons_of_pos (by simpa using hx), List.eraseDups_cons, List.filter_filter,
        List.append_assoc, List.singleton_append]
      congr 3
      refine List.filter_congr fun y _ => ?_
      by_cases hy : y = x
      · simp [hy]
      · simp [hy]

theorem foldl_unless_mem_nil (xs : List κ) :
    xs.foldl (fun there x => if x ∈ there then there else there ++ [x]) [] = xs.eraseDups := by
  rw [foldl_unless_mem, List.nil_append, List.filter_eq_self.mpr]
  exact fun x _ => decide_eq_true List.not_mem_nil

/-- What occurs before may be left out. -/
theorem eraseDups_append_of_subset {xs ys more : List κ} (h : ys ⊆ xs) :
    (xs ++ (ys ++ more)).eraseDups = (xs ++ more).eraseDups := by
  have hnone : ys.removeAll xs = [] := by
    rw [List.removeAll, List.filter_eq_nil_iff]
    intro y hy
    simpa using h hy
  have hmore : (ys ++ more).removeAll xs = more.removeAll xs := by
    rw [List.removeAll, List.filter_append]
    exact congrArg (· ++ more.removeAll xs) hnone
  rw [List.eraseDups_append, List.eraseDups_append, hmore]

/-- First occurrences of some are some of the first occurrences. -/
theorem eraseDups_filter (p : κ → Bool) (xs : List κ) : (xs.filter p).eraseDups = xs.eraseDups.filter p := by
  cases xs with
  | nil => rfl
  | cons x xs =>
    have hshorter := List.length_filter_le (fun b => !b == x) xs
    rw [List.eraseDups_cons, List.filter_cons]
    by_cases hx : p x = true
    · rw [if_pos hx, List.eraseDups_cons, List.filter_cons_of_pos hx, ← eraseDups_filter, List.filter_filter,
        List.filter_filter]
      simp only [Bool.and_comm]
    · rw [if_neg hx, List.filter_cons_of_neg hx, ← eraseDups_filter, List.filter_filter]
      congr 1
      refine List.filter_congr fun y _ => ?_
      by_cases hy : y = x
      · simp [hy, hx]
      · simp [hy]
termination_by xs.length
decreasing_by all_goals (rw [List.length_cons]; omega)

/-- The first occurrences of a list and of one that is put behind it tell those of both. -/
theorem eraseDups_append_congr {xs xs' ys ys' : List κ} (hxs : xs.eraseDups = xs'.eraseDups)
    (hys : ys.eraseDups = ys'.eraseDups) : (xs ++ ys).eraseDups = (xs' ++ ys').eraseDups := by
  have hmem : ∀ y, y ∈ xs ↔ y ∈ xs' := by
    intro y
    rw [← List.mem_eraseDups, hxs, List.mem_eraseDups]
  have hremoved : (ys.removeAll xs).eraseDups = (ys'.removeAll xs').eraseDups := by
    rw [List.removeAll, List.removeAll, eraseDups_filter, eraseDups_filter, hys]
    exact List.filter_congr fun y _ => by simp [hmem y]
  rw [List.eraseDups_append, List.eraseDups_append, hxs, hremoved]

theorem eraseDups_flatMap_congr {l : List α} {f g : α → List κ} (h : ∀ x ∈ l, (f x).eraseDups = (g x).eraseDups) :
    (l.flatMap f).eraseDups = (l.flatMap g).eraseDups := by
  induction l with
  | nil => rfl
  | cons x l ih =>
    rw [List.flatMap_cons, List.flatMap_cons]
    exact eraseDups_append_congr (h x (List.mem_cons_self ..)) (ih fun y hy => h y (List.mem_cons_of_mem x hy))

/-- Adding what is not there yet leaves the first occurrences as they are. -/
theorem eraseDups_foldl_unless_mem (xs there : List κ) :
    (xs.foldl (fun there x => if x ∈ there then there else there ++ [x]) there).eraseDups
      = (there ++ xs).eraseDups := by
  rw [← foldl_unless_mem_nil, ← foldl_unless_mem_nil, List.foldl_append]
  induction xs generalizing there with
  | nil => rfl
  | cons x xs ih =>
    rw [List.foldl_cons, List.foldl_cons, ih]
    by_cases hx : x ∈ there
    · have hfirst : x ∈ there.foldl (fun there x => if x ∈ there then there else there ++ [x]) [] := by
        rw [foldl_unless_mem_nil]
        exact List.mem_eraseDups.mpr hx
      rw [if_pos hx, if_pos hfirst]
    · rw [if_neg hx, List.foldl_append, List.foldl_cons, List.foldl_nil]

/-- What the first occurrences stand for, the first one in front; `p` tells what the others stand for. -/
theorem filterMap_eraseDups_cons {f : κ → Option α} {p : α → Bool} {x : κ} {xs : List κ}
    (h : ∀ y ∈ xs, ∀ a, f y = some a → (p a = true ↔ y ≠ x)) :
    (x :: xs).eraseDups.filterMap f = (f x).toList ++ (xs.eraseDups.filterMap f).filter p := by
  have hothers : (xs.eraseDups.filter fun y => !y == x).filterMap f = (xs.eraseDups.filterMap f).filter p := by
    rw [List.filterMap_filter, List.filter_filterMap]
    refine List.filterMap_congr fun y hy => ?_
    cases hf : f y with
    | none => simp
    | some a =>
      have hp := h y (List.mem_eraseDups.mp hy) a hf
      by_cases hx : y = x
      · simp [hx, Option.filter_some, Bool.eq_false_iff.mpr fun ha => hp.mp ha hx]
      · simp [hx, Option.filter_some, hp.mpr hx]
  rw [List.eraseDups_cons, eraseDups_filter, List.filterMap_cons, hothers]
  cases f x <;> rfl

theorem filterMap_eraseDups_cons_none {f : κ → Option α} {x : κ} (hx : f x = none) (xs : List κ) :
    (x :: xs).eraseDups.filterMap f = xs.eraseDups.filterMap f := by
  rw [filterMap_eraseDups_cons (p := fun _ => true) fun y _ a ha => iff_of_true rfl fun heq => ?_, hx,
    List.filter_true]
  · rfl
  · rw [heq, hx] at ha
    cases ha

end

end ApiLint
