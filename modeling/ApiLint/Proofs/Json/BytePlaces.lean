import ApiLint.Proofs.Json.Bytewise
import ApiLint.Proofs.Json.ErrorPlaces

/-!
# Where a reader of bytes stands

`Bytewise.StandsOn` relates the state of a reader of bytes to the cursor of a reader of characters: both are at the same
point of the text, the state knows where the line of the cursor begins, and the column that it knows is that of a place
on this line, or the place is on an earlier one.

Readers that stand at the same point see the same.  The column that the one counts is the column that the other has kept
(`StandsOn.columnAt_eq`), so both name the same place in an error.  The byte in front is that of the character in front,
as far as it can be told from one byte (`StandsAt.exists_byte?`), and a piece that the cursor has in front can be cut
out (`StandsAt.cut_eq`).  Both move on together over the characters of a line and over line feeds, and so over white
space (`StandsAt.skip`).

`Bytewise.Agrees` says of the outcomes of two readers that they are the same and leave the readers at the same point.
-/

namespace ApiLint.Json.Bytewise

open Grammar

variable {text : String}

/-! ### Where the readers stand -/

/-- The reader of bytes stands where the reader of characters does, behind `line` on the line that begins behind
`before`. -/
structure StandsOn (text : String) (s : State) (c : Cursor) (before line : List Char) : Prop where
  split : text.toList = before ++ line ++ c.rest
  lineStart : s.lineStart = byteSize before
  offset : s.offset = byteSize (before ++ line)
  position : c.position = ⟨s.line, line.length + 1, s.offset⟩
  /-- The known column is that of a place on an earlier line, or of one on this line up to here. -/
  known : s.known.1 < s.lineStart ∨
    ∃ front back, line = front ++ back ∧ s.known = (byteSize (before ++ front), front.length)

def StandsAt (text : String) (s : State) (c : Cursor) : Prop :=
  ∃ before line, StandsOn text s c before line

section Places

variable {s : State} {c : Cursor} {before line cs rest : List Char}

/-- The column of a place further on, if the line does not end before, whether it is counted from the start of the line
or from a place known. -/
theorem StandsOn.columnAt_eq (h : StandsOn text s c before line) (hrest : c.rest = cs ++ rest) :
    columnAt text s (s.offset + byteSize cs) = .ok (line.length + cs.length) := by
  have hsplit := h.split
  rw [hrest] at hsplit
  have hcut : ∀ {front back}, line = front ++ back →
      cut? text (byteSize (before ++ front)) (s.offset + byteSize cs) = some (String.ofList (back ++ cs)) := by
    rintro front back rfl
    have hpiece : text.toList = before ++ front ++ (back ++ cs) ++ rest := by
      rw [hsplit]
      simp only [List.append_assoc]
    rw [← cut?_of_split hpiece, h.offset]
    simp only [byteSize_append, Nat.add_assoc]
  have hle : ∀ {front back}, line = front ++ back → byteSize (before ++ front) ≤ s.offset + byteSize cs := by
    rintro front back rfl
    rw [h.offset]
    simp only [byteSize_append]
    omega
  rw [columnAt]
  rcases h.known with hknown | ⟨front, back, hline, hknown⟩
  · -- a place on an earlier line is not used
    have hcolumn := hcut (List.nil_append line).symm
    have hstart := hle (List.nil_append line).symm
    rw [List.append_nil] at hcolumn hstart
    rw [if_neg fun hcached => absurd hcached.1 (Nat.not_le.mpr hknown), h.lineStart]
    dsimp only
    rw [if_neg (Nat.not_lt.mpr hstart), hcolumn]
    simp
  · have hcolumn := hcut hline
    have hcached : s.lineStart ≤ s.known.1 ∧ s.known.1 ≤ s.offset + byteSize cs := by
      rw [hknown, h.lineStart]
      refine ⟨?_, hle hline⟩
      rw [byteSize_append]
      exact Nat.le_add_right _ _
    rw [if_pos hcached, hknown]
    dsimp only
    rw [if_neg (Nat.not_lt.mpr (hle hline)), hcolumn, hline]
    simp [Nat.add_assoc]

/-- An error further on, in a literal that begins here. -/
theorem StandsAt.failAt_eq {α : Type} (h : StandsAt text s c) (hrest : c.rest = cs ++ rest) (p : Problem) :
    (failAt text s (s.offset + byteSize cs) p : Except Stop α)
      = .error (.fault ⟨p, c.position.pastAll cs, if rest.isEmpty then 0 else 1⟩) := by
  obtain ⟨before, line, h⟩ := h
  have hsize : text.utf8ByteSize = s.offset + byteSize cs + byteSize rest := by
    rw [utf8ByteSize_eq_byteSize, h.split, h.offset, hrest, byteSize_append, byteSize_append cs, Nat.add_assoc]
  have hlength : (if s.offset + byteSize cs < text.utf8ByteSize then 1 else 0) = if rest.isEmpty then 0 else 1 := by
    cases rest with
    | nil =>
      rw [hsize]
      exact if_neg (Nat.lt_irrefl _)
    | cons d ds =>
      have hd := d.utf8Size_pos
      rw [if_pos (by rw [hsize, byteSize_cons]; omega)]
      rfl
  rw [failAt, h.columnAt_eq hrest]
  dsimp only
  rw [hlength, h.position, Position.pastAll_eq, Nat.add_right_comm]

theorem StandsAt.fail_eq {α : Type} (h : StandsAt text s c) (p : Problem) :
    (fail text s p : Except Stop α)
      = .error (.fault ⟨p, c.position, if c.rest.isEmpty then 0 else 1⟩) :=
  h.failAt_eq (List.nil_append c.rest).symm p

theorem StandsAt.here_eq (h : StandsAt text s c) :
    ∃ t le, here text s = .ok (c.position, ⟨t, le⟩) ∧ StandsAt text t c := by
  obtain ⟨before, line, h⟩ := h
  refine ⟨{ s with known := (s.offset, line.length) }, Nat.le_refl _, ?_, before, line, h.split, h.lineStart,
    h.offset, h.position, .inr ⟨line, [], (List.append_nil line).symm, ?_⟩⟩
  · have hcolumn := h.columnAt_eq (List.nil_append c.rest).symm
    rw [byteSize_nil, Nat.add_zero] at hcolumn
    rw [here, hcolumn]
    dsimp only
    rw [h.position]
    rfl
  · rw [h.offset]

/-! ### The byte in front -/

theorem StandsAt.byte?_eq_none (h : StandsAt text s c) (hrest : c.rest = []) : byte? text s.offset = none := by
  obtain ⟨before, line, h⟩ := h
  refine ApiLint.byte?_eq_none ?_
  rw [utf8ByteSize_eq_byteSize, h.split, h.offset, hrest, List.append_nil]

theorem StandsAt.exists_byte? {d : Char} (h : StandsAt text s c) (hrest : c.rest = d :: rest) :
    ∃ b, byte? text s.offset = some b ∧ Opens b d := by
  obtain ⟨before, line, h⟩ := h
  rw [h.offset]
  exact exists_byte?_opens (by rw [h.split, hrest])

theorem StandsAt.byte?_eq_iff (h : StandsAt text s c) {a : Char} (ha : a.toNat < 128) :
    byte? text s.offset = some a.toUInt8 ↔ c.rest.head? = some a := by
  cases hrest : c.rest with
  | nil =>
    rw [h.byte?_eq_none hrest]
    exact ⟨nofun, nofun⟩
  | cons d rest =>
    obtain ⟨b, hb, hopens⟩ := h.exists_byte? hrest
    rw [hb, List.head?_cons, Option.some.injEq, Option.some.injEq, hopens.eq_iff ha]

/-! ### Steps -/

/-- Both readers pass the same characters of a line. -/
theorem StandsAt.pastAll (h : StandsAt text s c) (hrest : c.rest = cs ++ rest) :
    StandsAt text (s.move (byteSize cs)) ⟨c.position.pastAll cs, rest⟩ := by
  obtain ⟨before, line, h⟩ := h
  refine ⟨before, line ++ cs, ?_, h.lineStart, ?_, ?_, ?_⟩
  · rw [h.split, hrest]
    simp only [List.append_assoc]
  · rw [← List.append_assoc, byteSize_append, ← h.offset]
    rfl
  · rw [h.position, Position.pastAll_eq, List.length_append, Nat.add_right_comm]
    rfl
  · refine h.known.imp_right ?_
    rintro ⟨front, back, rfl, hknown⟩
    exact ⟨front, back ++ cs, List.append_assoc .., hknown⟩

theorem StandsAt.past {d : Char} (h : StandsAt text s c) (hrest : c.rest = d :: rest) (hd : d.toNat < 128) :
    StandsAt text (s.move 1) ⟨c.position.past d, rest⟩ := by
  have hpast := h.pastAll (hrest.trans (List.singleton_append).symm)
  rwa [byteSize_cons, utf8Size_eq_one hd] at hpast

theorem StandsAt.newLine (h : StandsAt text s c) (hrest : c.rest = '\n' :: rest) :
    StandsAt text ⟨s.offset + 1, s.line + 1, s.offset + 1, s.known⟩ ⟨c.position.after '\n', rest⟩ := by
  obtain ⟨before, line, h⟩ := h
  have hsize : byteSize (before ++ line ++ ['\n']) = s.offset + 1 := by
    rw [byteSize_append, ← h.offset]
    rfl
  refine ⟨before ++ line ++ ['\n'], [], ?_, hsize.symm, ?_, ?_, .inl ?_⟩
  · rw [h.split, hrest]
    simp
  · rw [List.append_nil, hsize]
  · rw [h.position]
    rfl
  · -- the place known is on the line that ends here
    have hoffset : s.offset = s.lineStart + byteSize line := by
      rw [h.offset, h.lineStart, byteSize_append]
    show s.known.1 < s.offset + 1
    rcases h.known with hknown | ⟨front, back, rfl, hknown⟩
    · omega
    · rw [hknown, h.offset, byteSize_append, byteSize_append, byteSize_append]
      omega

theorem toNat_lt_of_isSpace {d : Char} (hd : isSpace d = true) : d.toNat < 128 := by
  simp only [isSpace, Bool.or_eq_true, decide_eq_true_eq] at hd
  rcases hd with ((rfl | rfl) | rfl) | rfl <;> decide

/-- **Both readers pass the same white space.** -/
theorem StandsAt.skip (h : StandsAt text s c) : StandsAt text (skip text s) c.skip := by
  obtain ⟨p, cs⟩ := c
  induction cs generalizing s p with
  | nil =>
    rw [skip_of_none (h.byte?_eq_none rfl)]
    exact h
  | cons d cs ih =>
    obtain ⟨b, hb, hopens⟩ := h.exists_byte? rfl
    have heq : ∀ a : Char, a.toNat < 128 → (b = a.toUInt8 ↔ d = a) := fun a ha => hopens.eq_iff ha
    rw [skip_of_some hb, Cursor.skip, Cursor.skipSpaces]
    simp only [heq '\n' (by decide), heq ' ' (by decide), heq '\t' (by decide), heq '\r' (by decide)]
    by_cases hline : d = '\n'
    · subst hline
      rw [if_pos rfl, if_pos (by decide)]
      exact ih _ (h.newLine rfl)
    · rw [if_neg hline]
      by_cases hspace : isSpace d = true
      · have hblank : d = ' ' ∨ d = '\t' ∨ d = '\r' := by
          simpa [isSpace, hline, or_assoc] using hspace
        rw [if_pos hspace, if_pos hblank, Position.after_of_ne hline]
        exact ih _ (h.past rfl (toNat_lt_of_isSpace hspace))
      · have hblank : ¬ (d = ' ' ∨ d = '\t' ∨ d = '\r') := by
          simpa [isSpace, hline, or_assoc] using hspace
        rw [if_neg hspace, if_neg hblank]
        exact h

theorem skip_skip (text : String) (s : State) : Bytewise.skip text (Bytewise.skip text s) = Bytewise.skip text s := by
  fun_induction Bytewise.skip text s with
  | case1 s hb => exact skip_of_none hb
  | case2 s hb ih => exact ih
  | case3 s b hb hline hblank ih => exact ih
  | case4 s b hb hline hblank => rw [skip_of_some hb, if_neg hline, if_neg hblank]

/-! ### Pieces in front -/

theorem StandsAt.size_eq (h : StandsAt text s c) : text.utf8ByteSize = s.offset + byteSize c.rest := by
  obtain ⟨before, line, h⟩ := h
  rw [utf8ByteSize_eq_byteSize, h.split, h.offset, byteSize_append]

/-- The offset of a place further on, counted from the end of the text. -/
theorem StandsAt.offset_add (h : StandsAt text s c) (hrest : c.rest = cs ++ rest) :
    text.utf8ByteSize - byteSize rest = s.offset + byteSize cs := by
  rw [h.size_eq, hrest, byteSize_append]
  omega

theorem StandsAt.cut_eq (h : StandsAt text s c) (hrest : c.rest = cs ++ rest) :
    cut text s.offset (s.offset + byteSize cs) = .ok (String.ofList cs) := by
  obtain ⟨before, line, h⟩ := h
  have hpiece : cut? text (byteSize (before ++ line)) (byteSize (before ++ line ++ cs)) = some (String.ofList cs) := by
    refine cut?_eq_some_iff.mpr ⟨before ++ line, rest, ?_, rfl, ?_⟩
    · rw [h.split, hrest, String.toList_ofList, ← List.append_assoc]
    · rw [String.toList_ofList]
  rw [cut, h.offset, ← byteSize_append, hpiece]

/-- Up to the end of the text. -/
theorem StandsAt.cut_end (h : StandsAt text s c) :
    cut text s.offset text.utf8ByteSize = .ok (String.ofList c.rest) := by
  rw [h.size_eq]
  exact h.cut_eq (List.append_nil c.rest).symm

end Places

/-! ### Agreement -/

section Agreement

variable {α : Type} {P : State → Prop} {Q : Cursor → Prop}

/-- The reader of bytes has the outcome of the reader of characters, and stands where that stands then. -/
def Agrees (text : String) (b : Except Stop (α × Subtype P)) (r : Except ReadError (α × Subtype Q)) : Prop :=
  match r with
  | .error e => b = .error (.fault e)
  | .ok (a, d) => ∃ t, b = .ok (a, t) ∧ StandsAt text t.1 d.1

theorem Agrees.of_error {b : Except Stop (α × Subtype P)} {r : Except ReadError (α × Subtype Q)} {e : ReadError}
    (h : Agrees text b r) (hr : r = .error e) : b = .error (.fault e) := by
  rw [hr] at h
  exact h

theorem Agrees.of_ok {b : Except Stop (α × Subtype P)} {r : Except ReadError (α × Subtype Q)} {a : α}
    {d : Subtype Q} (h : Agrees text b r) (hr : r = .ok (a, d)) :
    ∃ t, b = .ok (a, t) ∧ StandsAt text t.1 d.1 := by
  rw [hr] at h
  exact h

theorem agrees_later {s t : State} (hle : s.offset ≤ t.offset) {step : Step t α}
    {r : Except ReadError (α × Subtype Q)} (h : Agrees text step r) : Agrees text (later hle step) r := by
  cases r with
  | error e =>
    rw [h.of_error rfl]
    rfl
  | ok p =>
    obtain ⟨t, hstep, hstands⟩ := h.of_ok rfl
    rw [hstep]
    exact ⟨⟨t.1, _⟩, rfl, hstands⟩

theorem agrees_fail {s : State} {c : Cursor} (h : StandsAt text s c) (problem : Problem) :
    Agrees text (fail text s problem : Except Stop (α × Subtype P))
      (c.fail problem : Except ReadError (α × Subtype Q)) :=
  h.fail_eq problem

end Agreement

end ApiLint.Json.Bytewise
