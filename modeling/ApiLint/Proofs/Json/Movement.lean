import ApiLint.Proofs.Json.Acceptance
import ApiLint.Proofs.Json.Positions
import ApiLint.Proofs.Text.Points

/-!
# Readers move over the text

A reader looks for line feeds only where it skips white space, and inside a token it counts columns alone.
That this loses nothing is shown here: every reader takes characters off the text and moves the point by
these same characters, line feeds included (`Cursor.Passes`, `Cursor.Moves`).  No token holds a line feed,
since a string has no control characters, be they hidden or not, and the rest is spelled out.

A container is read by a loop over its entries, and each entry starts where the loop has moved to
(`moves_entries`).  So a value is read by a reader of values that was moved to it, and so is everything in
it (`exists_value_of_get?`).
-/

namespace ApiLint.Json

open Grammar

namespace Cursor

/-! ### Moving a cursor -/

/-- From `c` to `d` the characters `cs` were taken off, and the point was moved past them. -/
def Passes (c : Cursor) (cs : List Char) (d : Cursor) : Prop :=
  c.rest = cs ++ d.rest ∧ d.position = c.position.afterAll cs

/-- `d` is further on in the text than `c`, or at the same place. -/
def Moves (c d : Cursor) : Prop :=
  ∃ cs, c.Passes cs d

theorem Passes.append {c d e : Cursor} {cs ds : List Char} (h : c.Passes cs d) (h' : d.Passes ds e) :
    c.Passes (cs ++ ds) e := by
  obtain ⟨hrest, hposition⟩ := h
  obtain ⟨hrest', hposition'⟩ := h'
  refine ⟨?_, ?_⟩
  · rw [hrest, hrest', List.append_assoc]
  · rw [hposition', hposition, Position.afterAll_append]

theorem Moves.refl (c : Cursor) : c.Moves c :=
  ⟨[], rfl, rfl⟩

theorem Moves.trans {c d e : Cursor} (h : c.Moves d) (h' : d.Moves e) : c.Moves e := by
  obtain ⟨cs, hcs⟩ := h
  obtain ⟨ds, hds⟩ := h'
  exact ⟨cs ++ ds, hcs.append hds⟩

/-- What was taken off is determined by what is left. -/
theorem Moves.passes {c d : Cursor} (h : c.Moves d) {cs : List Char} (hcs : c.rest = cs ++ d.rest) :
    c.Passes cs d := by
  obtain ⟨ds, hrest, hposition⟩ := h
  have heq : cs = ds := List.append_cancel_right (hcs.symm.trans hrest)
  rw [heq]
  exact ⟨hrest, hposition⟩

theorem moves_skip (c : Cursor) : c.Moves c.skip := by
  have hspaces : ∀ (cs : List Char) (p : Position), (⟨p, cs⟩ : Cursor).Moves (skipSpaces p cs) := by
    intro cs
    induction cs with
    | nil => exact fun p => .refl _
    | cons d cs ih =>
      intro p
      rw [skipSpaces]
      by_cases hd : isSpace d = true
      · rw [if_pos hd]
        obtain ⟨ds, hrest, hposition⟩ := ih (p.after d)
        exact ⟨d :: ds, congrArg (d :: ·) hrest, hposition⟩
      · rw [if_neg hd]
        exact .refl _
  exact hspaces c.rest c.position

/-- A token without line feeds may be passed in one step. -/
theorem passes_pastAll {c : Cursor} {cs rest : List Char} (hrest : c.rest = cs ++ rest) (hcs : '\n' ∉ cs) :
    c.Passes cs ⟨c.position.pastAll cs, rest⟩ :=
  ⟨hrest, Position.pastAll_eq_afterAll hcs c.position⟩

theorem moves_past {c : Cursor} {d : Char} {rest : List Char} (hrest : c.rest = d :: rest) (hd : d ≠ '\n') :
    c.Moves ⟨c.position.past d, rest⟩ := by
  have hline : '\n' ∉ [d] := fun hmem => hd (List.mem_singleton.mp hmem).symm
  exact ⟨[d], passes_pastAll hrest hline⟩

end Cursor

/-! ### Tokens -/

namespace Grammar

theorem HexDigit.ne_lineFeed {c : Char} {n : Nat} (h : HexDigit c n) : c ≠ '\n' := by
  rintro rfl
  have hdigit := hexDigit?_of_hexDigit h
  rw [show StringLiteral.hexDigit? '\n' = none by decide] at hdigit
  cases hdigit

theorem UnitText.not_mem_lineFeed {cs : List Char} {n : Nat} (h : UnitText cs n) : '\n' ∉ cs := by
  cases h with
  | mk ha hb hc hd =>
    have hne := fun {c : Char} {m : Nat} (h : HexDigit c m) => h.ne_lineFeed.symm
    simp [hne ha, hne hb, hne hc, hne hd]

theorem Sequence.not_mem_lineFeed {α : Type} {E : List Char → α → Prop}
    (hE : ∀ {cs a}, E cs a → '\n' ∉ cs) {cs : List Char} {as : List α} (h : Sequence E cs as) :
    '\n' ∉ cs := by
  induction h with
  | nil => exact List.not_mem_nil
  | cons ha _ ih =>
    rw [List.mem_append, not_or]
    exact ⟨hE ha, ih⟩

theorem CharText.not_mem_lineFeed {cs : List Char} {c : Char} (h : CharText cs c) : '\n' ∉ cs := by
  cases h with
  | plain _ _ hcontrol =>
    rw [List.mem_singleton]
    rintro rfl
    exact absurd hcontrol (by decide)
  | @letter l _ hl =>
    have hne : l ≠ '\n' := by
      rintro rfl
      exact absurd (simpleEscape?_eq_some_iff.mpr hl) (by simp [StringLiteral.simpleEscape?])
    simp [hne.symm]
  | units hunits => exact Sequence.not_mem_lineFeed UnitText.not_mem_lineFeed hunits

theorem StringText.not_mem_lineFeed {cs : List Char} {s : String} (h : StringText cs s) : '\n' ∉ cs := by
  cases h with
  | mk hbody =>
    have := Sequence.not_mem_lineFeed CharText.not_mem_lineFeed hbody
    simp [this]

theorem NumberText.not_mem_lineFeed {cs : List Char} {m : Number} (h : NumberText cs m) : '\n' ∉ cs := by
  cases h with
  | mk hn _ =>
    intro hmem
    exact absurd (isNumeralChar_of_mem_numeralChars hn _ hmem) (by decide)

end Grammar

/-- The scan for the closing quote moves on the line of the opening one. -/
theorem position_of_scan {p q : Position} {hidden : Bool} {cs body rest : List Char}
    (h : StringLiteral.scan p hidden cs = .ok (body, q, rest)) : q = p.pastAll (body ++ ['"']) := by
  induction cs generalizing p hidden body with
  | nil => cases h
  | cons c cs ih =>
    have hstep : ∀ {b : Bool}, (StringLiteral.scan (p.past c) b cs).map (fun r => (c :: r.1, r.2))
        = .ok (body, q, rest) → q = p.pastAll (body ++ ['"']) := by
      intro b hb
      obtain ⟨⟨ds, q', rest'⟩, hds, heq⟩ := map_eq_ok_iff.mp hb
      cases heq
      have hq := ih hds
      exact hq
    rw [StringLiteral.scan] at h
    split at h
    · exact hstep h
    · split at h
      · rename_i hquote
        cases h
        rw [hquote]
        rfl
      · split at h
        · cases h
        · exact hstep h

theorem moves_string {c d : Cursor} {s : String} {further : d.rest.length < c.rest.length}
    (hc : c.rest.head? = some '"') (h : string c = .ok (s, ⟨d, further⟩)) : c.Moves d := by
  obtain ⟨cs, hcs, hrest⟩ := string_sound hc (reads_of_eq_ok h id)
  have hposition : d.position = c.position.pastAll cs := by
    unfold string at h
    split at h
    · cases h
    · rename_i quote ds hquote
      split at h
      · cases h
      · cases h
      · rename_i body q left hscan
        split at h
        · cases h
        · cases h
          -- what was scanned is what the production says was taken off
          have htaken : cs = quote :: (body ++ ['"']) := by
            refine List.append_cancel_right (hrest.symm.trans (hquote.trans ?_))
            rw [(eq_append_quote_of_scan hscan).1, List.cons_append, List.append_assoc]
            rfl
          rw [htaken]
          exact position_of_scan hscan
  have hpasses := Cursor.passes_pastAll hrest hcs.not_mem_lineFeed
  rw [← hposition] at hpasses
  exact ⟨cs, hpasses⟩

theorem moves_number {c d : Cursor} {m : Number} {further : d.rest.length < c.rest.length}
    (h : number c = .ok (m, ⟨d, further⟩)) : c.Moves d := by
  unfold number at h
  split at h
  · cases h
  · rename_i first cs hrest
    dsimp only at h
    split at h
    · cases h
    · rename_i hm
      cases h
      have hline := (ofChars?_eq_some_iff_numberText.mp hm).not_mem_lineFeed
      refine ⟨_, Cursor.passes_pastAll ?_ hline⟩
      rw [hrest, List.cons_append, List.takeWhile_append_dropWhile]

theorem moves_word {w : List Char} (hw : '\n' ∉ w) {c d : Cursor} {u : Unit}
    {further : d.rest.length < c.rest.length} (h : word w c = .ok (u, ⟨d, further⟩)) : c.Moves d := by
  have hrest := word_sound (reads_of_eq_ok h id)
  unfold word at h
  split at h
  · cases h
    exact ⟨w, Cursor.passes_pastAll hrest hw⟩
  · cases h

/-! ### Containers -/

def Moving {α : Type} (read : (c : Cursor) → Step c α) : Prop :=
  ∀ {c d : Cursor} {a : α} {further : d.rest.length < c.rest.length},
    read c = .ok (a, ⟨d, further⟩) → c.Moves d

def ReadsLater {α : Type} (read : (c : Cursor) → Step c α) (c : Cursor) (a : α) : Prop :=
  ∃ (c' d : Cursor) (further : d.rest.length < c'.rest.length),
    c.Moves c' ∧ read c' = .ok (a, ⟨d, further⟩)

theorem ReadsLater.of_moves {α : Type} {read : (c : Cursor) → Step c α} {c d : Cursor} {a : α}
    (h : ReadsLater read d a) (hmoves : c.Moves d) : ReadsLater read c a := by
  obtain ⟨c', e, further, hd, hread⟩ := h
  exact ⟨c', e, further, hmoves.trans hd, hread⟩

theorem Closing.ne_lineFeed {close : Char} (h : Closing close) : close ≠ '\n' := by
  rintro rfl
  exact absurd h.not_space (by decide)

section Containers

variable {α : Type} {close : Char} {problem : Problem} {entry : (c : Cursor) → Step c α}

theorem moves_delimiter (hclose : Closing close) {c d : Cursor} {t : Delimiter}
    {further : d.rest.length < c.rest.length}
    (h : delimiter close problem c = .ok (t, ⟨d, further⟩)) : c.Moves d := by
  unfold delimiter at h
  split at h
  · cases h
  · rename_i e cs hskip
    dsimp only at h
    split at h
    · rename_i hcomma
      cases h
      exact c.moves_skip.trans (Cursor.moves_past hskip (by rw [hcomma]; decide))
    · split at h
      · rename_i hbracket
        cases h
        exact c.moves_skip.trans (Cursor.moves_past hskip (by rw [hbracket]; exact hclose.ne_lineFeed))
      · cases h

/-- **The loop over the entries moves, and every entry is read where the loop has moved to.** -/
theorem moves_entries (hentry : Moving entry) (hclose : Closing close) {c d : Cursor} {as : List α}
    {further : d.rest.length < c.rest.length}
    (h : entries close problem entry c = .ok (as, ⟨d, further⟩)) :
    c.Moves d ∧ ∀ a ∈ as, ReadsLater entry c a := by
  fun_induction entries close problem entry c generalizing as d with
  | case1 | case2 | case4 => cases h
  | case3 c a c₁ h₁ he c₂ h₂ hd =>
    cases h
    refine ⟨(hentry he).trans (moves_delimiter hclose hd), ?_⟩
    intro b hb
    rw [List.mem_singleton.mp hb]
    exact ⟨c, c₁, h₁, .refl c, he⟩
  | case5 c a c₁ h₁ he c₂ h₂ hd as c₃ h₃ hentries ih =>
    cases h
    have hmoves : c.Moves c₂ := (hentry he).trans (moves_delimiter hclose hd)
    obtain ⟨hrest, hlater⟩ := ih hentries
    refine ⟨hmoves.trans hrest, ?_⟩
    intro b hb
    rcases List.mem_cons.mp hb with rfl | hb
    · exact ⟨c, c₁, h₁, .refl c, he⟩
    · exact (hlater b hb).of_moves hmoves

theorem moves_afterBracket (hentry : Moving entry) (hclose : Closing close) {c d : Cursor} {as : List α}
    {further : d.rest.length < c.rest.length}
    (h : afterBracket close problem entry c = .ok (as, ⟨d, further⟩)) :
    c.Moves d ∧ ∀ a ∈ as, ReadsLater entry c a := by
  unfold afterBracket at h
  split at h
  · exact moves_entries hentry hclose h
  · rename_i e cs hskip
    split at h
    · rename_i hbracket
      cases h
      refine ⟨c.moves_skip.trans (Cursor.moves_past hskip ?_), fun a ha => absurd ha List.not_mem_nil⟩
      rw [hbracket]
      exact hclose.ne_lineFeed
    · exact moves_entries hentry hclose h

theorem moves_container (hentry : Moving entry) (hclose : Closing close) {c d : Cursor} {as : List α}
    {further : d.rest.length < c.rest.length} {left : Char} (hc : c.rest.head? = some left)
    (hleft : left ≠ '\n') (h : container close problem entry c = .ok (as, ⟨d, further⟩)) :
    c.Moves d ∧ ∀ a ∈ as, ReadsLater entry c a := by
  unfold container at h
  split at h
  · cases h
  · rename_i bracket cs hrest
    split at h
    · cases h
    · rename_i as' d' further' hafter
      cases h
      rw [hrest, List.head?_cons, Option.some.injEq] at hc
      obtain ⟨hmoves, hlater⟩ := moves_afterBracket hentry hclose hafter
      have hpast := Cursor.moves_past hrest (by rwa [hc])
      exact ⟨hpast.trans hmoves, fun a ha => (hlater a ha).of_moves hpast⟩

end Containers

theorem moves_key {c d : Cursor} {k : String} {further : d.rest.length < c.rest.length}
    (h : key c = .ok (k, ⟨d, further⟩)) : c.Moves d := by
  unfold key at h
  split at h
  · rename_i hquote
    split at h
    · cases h
    · rename_i k' c₁ h₁ hstring
      have hmoves : c.Moves c₁.skip :=
        (c.moves_skip.trans (moves_string hquote hstring)).trans c₁.moves_skip
      split at h
      · cases h
      · rename_i e cs hskip
        split at h
        · rename_i hcolon
          cases h
          exact hmoves.trans (Cursor.moves_past hskip (by rw [hcolon]; decide))
        · cases h
  · cases h

/-- A member moves, and its value is read behind its name. -/
theorem moves_member {element : (c : Cursor) → Step c Written} (helement : Moving element) {c d : Cursor}
    {m : String × Written} {further : d.rest.length < c.rest.length}
    (h : member element c = .ok (m, ⟨d, further⟩)) : c.Moves d ∧ ReadsLater element c m.2 := by
  unfold member at h
  split at h
  · cases h
  · rename_i k c₁ h₁ hkey
    split at h
    · cases h
    · rename_i w c₂ h₂ hvalue
      cases h
      exact ⟨(moves_key hkey).trans (helement hvalue), c₁, d, h₂, moves_key hkey, hvalue⟩

/-! ### Values -/

theorem spanned_eq_ok {α : Type} {c d : Cursor} {make : Span → α → Written} {read : Step c.skip α}
    {w : Written} {further : d.rest.length < c.rest.length}
    (h : spanned c make read = .ok (w, ⟨d, further⟩)) :
    ∃ a further', read = .ok (a, ⟨d, further'⟩) ∧ w = make ⟨c.skip.position, d.position⟩ a := by
  unfold spanned at h
  split at h
  · cases h
  · cases h
    exact ⟨_, _, rfl, rfl⟩

/-- What reading a value with `levels` levels below it comes to: it starts where the white space ends, and
what is in it is read on the way. -/
structure ReadFrom (levels : Nat) (c d : Cursor) (w : Written) : Prop where
  span : w.span = ⟨c.skip.position, d.position⟩
  moves : c.skip.Moves d
  children : ∀ s x, w.child? s = some x → ReadsLater (value levels) c x

theorem readFrom_of_value {levels : Nat} (hlevels : Moving (value levels)) {c d : Cursor} {w : Written}
    {further : d.rest.length < c.rest.length}
    (h : value (levels + 1) c = .ok (w, ⟨d, further⟩)) : ReadFrom levels c d w := by
  cases hskip : c.skip.rest with
  | nil =>
    rw [value, hskip] at h
    cases h
  | cons first rest =>
    rw [value_of_skip hskip] at h
    have hhead : c.skip.rest.head? = some first := by rw [hskip, List.head?_cons]
    -- one case for each reader that the first character may choose
    split at h
    · rename_i hfirst
      rw [hfirst] at hhead
      obtain ⟨ms, _, hread, rfl⟩ := spanned_eq_ok h
      obtain ⟨hmoves, hlater⟩ := moves_container (fun h => (moves_member hlevels h).1) closing_brace hhead
        (by decide) hread
      refine ⟨rfl, hmoves, ?_⟩
      intro s x hx
      cases s with
      | index i => cases hx
      | key k =>
        have hmem := List.mem_reverse.mp (mem_of_lookup hx)
        obtain ⟨c', d', _, hc', hmember⟩ := hlater (k, x) hmem
        exact ((moves_member hlevels hmember).2.of_moves hc').of_moves c.moves_skip
    split at h
    · rename_i hfirst
      rw [hfirst] at hhead
      obtain ⟨items, _, hread, rfl⟩ := spanned_eq_ok h
      obtain ⟨hmoves, hlater⟩ := moves_container hlevels closing_bracket hhead (by decide) hread
      refine ⟨rfl, hmoves, ?_⟩
      intro s x hx
      cases s with
      | key k => cases hx
      | index i => exact (hlater x (List.mem_of_getElem? hx)).of_moves c.moves_skip
    split at h
    · rename_i hfirst
      rw [hfirst] at hhead
      obtain ⟨s, _, hread, rfl⟩ := spanned_eq_ok h
      exact ⟨rfl, moves_string hhead hread, fun s x hx => by cases s <;> cases hx⟩
    split at h
    · obtain ⟨_, _, hread, rfl⟩ := spanned_eq_ok h
      exact ⟨rfl, moves_word (by decide) hread, fun s x hx => by cases s <;> cases hx⟩
    split at h
    · obtain ⟨_, _, hread, rfl⟩ := spanned_eq_ok h
      exact ⟨rfl, moves_word (by decide) hread, fun s x hx => by cases s <;> cases hx⟩
    split at h
    · obtain ⟨_, _, hread, rfl⟩ := spanned_eq_ok h
      exact ⟨rfl, moves_word (by decide) hread, fun s x hx => by cases s <;> cases hx⟩
    split at h
    · obtain ⟨m, _, hread, rfl⟩ := spanned_eq_ok h
      exact ⟨rfl, moves_number hread, fun s x hx => by cases s <;> cases hx⟩
    · cases h

theorem moving_value (levels : Nat) : Moving (value levels) := by
  induction levels with
  | zero =>
    intro c d w further h
    rw [value] at h
    cases h
  | succ levels ih =>
    intro c d w further h
    exact c.moves_skip.trans (readFrom_of_value ih h).moves

/-- **Everything in a value was read as a value of its own, where the reader had moved to.** -/
theorem exists_value_of_get? {levels : Nat} {c d : Cursor} {w x : Written} {p : Path}
    {further : d.rest.length < c.rest.length} (h : value levels c = .ok (w, ⟨d, further⟩))
    (hx : w.get? p = some x) : ∃ n ≤ levels, ReadsLater (value n) c x := by
  induction p generalizing levels c d w with
  | nil =>
    rw [Written.get?, Option.some.injEq] at hx
    subst hx
    exact ⟨levels, Nat.le_refl levels, c, d, further, .refl c, h⟩
  | cons s p ih =>
    rw [Written.get?, Option.bind_eq_some_iff] at hx
    obtain ⟨y, hy, hx⟩ := hx
    cases levels with
    | zero =>
      rw [value] at h
      cases h
    | succ levels =>
      obtain ⟨c', d', _, hc', hread⟩ := (readFrom_of_value (moving_value levels) h).children s y hy
      obtain ⟨n, hn, hlater⟩ := ih hread hx
      exact ⟨n, Nat.le_succ_of_le hn, hlater.of_moves hc'⟩

end ApiLint.Json
