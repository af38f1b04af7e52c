import ApiLint.Path
import ApiLint.Text.Position

/-!
# Where the nodes of a text were written

A `PositionIndex` maps paths to spans.  It is filled while a text is read: the span of a value is
recorded when the value ends, and what was recorded at and below a path is dropped when a later member
of the same name takes the place of the value there.
-/

namespace ApiLint

/-- Spans by path.  Of two spans recorded for one path the later stands in front and counts. -/
structure PositionIndex where
  spans : List (Path × Span)

namespace PositionIndex

def empty : PositionIndex := ⟨[]⟩

def get? (ix : PositionIndex) (p : Path) : Option Span :=
  (ix.spans.find? fun e => e.1 = p).map Prod.snd

def insert (ix : PositionIndex) (p : Path) (s : Span) : PositionIndex :=
  ⟨(p, s) :: ix.spans⟩

def removeSubtree (ix : PositionIndex) (p : Path) : PositionIndex :=
  ⟨ix.spans.filter fun e => !e.1.startsWith p⟩

/-- The span of a path, or of the closest path above it that has one. -/
def nearest? (ix : PositionIndex) (p : Path) : Option (Path × Span) :=
  match ix.get? p with
  | some s => some (p, s)
  | none => if p = [] then none else ix.nearest? p.dropLast
termination_by p.length
decreasing_by
  have := List.length_pos_iff.2 ‹p ≠ []›
  simp only [List.length_dropLast]
  omega

@[simp] theorem get?_empty (p : Path) : empty.get? p = none := rfl

theorem get?_insert (ix : PositionIndex) (p q : Path) (s : Span) :
    (ix.insert p s).get? q = if p = q then some s else ix.get? q := by
  by_cases h : p = q
  · simp [insert, get?, h]
  · simp [insert, get?, h]

theorem get?_removeSubtree (ix : PositionIndex) (p q : Path) :
    (ix.removeSubtree p).get? q = if q.startsWith p then none else ix.get? q := by
  rw [get?, removeSubtree, List.find?_filter]
  by_cases h : q.startsWith p = true
  · rw [if_pos h, Option.map_eq_none_iff, List.find?_eq_none]
    rintro ⟨r, s⟩ _ hr
    simp only [Bool.not_eq_true', decide_eq_true_eq] at hr
    rw [hr.2, h] at hr
    exact absurd hr.1 (by decide)
  · rw [if_neg h, get?]
    congr 2
    funext e
    by_cases he : e.1 = q
    · simp [he, h]
    · simp [he]

end PositionIndex

end ApiLint
