import Mathlib.Data.List.Forall2

/-!
# Partial functions over a list

`List.mapM` comes to something if and only if the function does for every member (`mapM_eq_some_iff`).
-/

namespace ApiLint

variable {α β : Type} {f : α → Option β} {g : α → β} {xs : List α} {ys : List β}

theorem mapM_eq_some_iff : xs.mapM f = some ys ↔ List.Forall₂ (fun x y => f x = some y) xs ys := by
  induction xs generalizing ys with
  | nil => rw [List.mapM_nil, List.forall₂_nil_left_iff, Option.pure_def, Option.some.injEq, eq_comm]
  | cons x xs ih =>
    simp only [List.mapM_cons, Option.bind_eq_bind, Option.bind_eq_some_iff, ih, Option.pure_def, Option.some.injEq,
      List.forall₂_cons_left_iff]
    constructor
    · rintro ⟨y, hy, ys, hys, rfl⟩
      exact ⟨y, ys, hy, hys, rfl⟩
    · rintro ⟨y, ys, hy, hys, rfl⟩
      exact ⟨y, hy, ys, hys, rfl⟩

theorem mapM_eq_some_map (h : ∀ x ∈ xs, f x = some (g x)) : xs.mapM f = some (xs.map g) := by
  rw [mapM_eq_some_iff, List.forall₂_map_right_iff]
  exact List.forall₂_same.mpr h

theorem map_of_mapM (hg : ∀ x y, f x = some y → g x = y) (h : xs.mapM f = some ys) : xs.map g = ys := by
  have heach : List.Forall₂ (fun x y => g x = y) xs ys := (mapM_eq_some_iff.mp h).imp hg
  exact List.forall₂_eq_eq_eq ▸ List.forall₂_map_left_iff.mpr heach

end ApiLint
