import ApiLint.Json.Reader
import ApiLint.Proofs.Json.Numerals
import ApiLint.Proofs.Json.Strings

/-!
# Recognizing a production

A reader recognizes a production (`Recognizes`) if what it takes off a text is a piece of that production,
and if it takes off every piece.  A numeral has no mark at its end, so the second half needs that what
follows could not go on with a numeral; what follows a value in a text never does.

White space in front of a token is skipped by the reader of that token, and so productions are taken with
the white space before them (`Led`), and the entries of a container with the white space up to the
delimiter (`Trailed`).  Both together are white space on both sides (`padded_eq_trailed_led`).

The leaves are strings, numbers and words.  Their readers are called where the first character is known,
and each has a lemma for either half.
-/

namespace ApiLint.Json

open Grammar

/-! ### Steps -/

/-- The step reads something that denotes `b`, and leaves `rest`. -/
def Reads {c : Cursor} {α β : Type} (s : Step c α) (den : α → β) (b : β) (rest : List Char) : Prop :=
  ∃ a d h, s = .ok (a, ⟨d, h⟩) ∧ den a = b ∧ d.rest = rest

theorem reads_ok_iff {c d : Cursor} {α β : Type} {a : α} {h : d.rest.length < c.rest.length} {den : α → β}
    {b : β} {rest : List Char} : Reads (c := c) (.ok (a, ⟨d, h⟩)) den b rest ↔ den a = b ∧ d.rest = rest := by
  constructor
  · rintro ⟨a, d, hd, hs, rfl, rfl⟩
    cases hs
    exact ⟨rfl, rfl⟩
  · rintro ⟨rfl, rfl⟩
    exact ⟨a, d, h, rfl, rfl, rfl⟩

theorem reads_of_eq_ok {c d : Cursor} {α β : Type} {s : Step c α} {a : α} {h : d.rest.length < c.rest.length}
    (hs : s = .ok (a, ⟨d, h⟩)) (den : α → β) : Reads s den (den a) d.rest :=
  ⟨a, d, h, hs, rfl, rfl⟩

theorem not_reads_error {c : Cursor} {α β : Type} {e : ReadError} {den : α → β} {b : β}
    {rest : List Char} : ¬ Reads (c := c) (.error e) den b rest := by
  rintro ⟨a, d, hd, hs, -⟩
  cases hs

/-- What the reader takes off a text is a piece of the production, and it takes off every piece that is
not followed by a character of a numeral. -/
structure Recognizes {α β : Type} (read : (c : Cursor) → Step c α) (den : α → β)
    (E : List Char → β → Prop) : Prop where
  sound : ∀ {c : Cursor} {b : β} {rest : List Char}, Reads (read c) den b rest →
    ∃ cs, E cs b ∧ c.rest = cs ++ rest
  complete : ∀ {c : Cursor} {cs : List Char} {b : β} {rest : List Char}, E cs b →
    c.rest = cs ++ rest → Stops isNumeralChar rest → Reads (read c) den b rest

/-! ### White space -/

theorem blank_iff {ws : List Char} : Blank ws ↔ ∀ c ∈ ws, isSpace c = true := by
  simp only [Blank, isSpace, Bool.or_eq_true, decide_eq_true_eq, or_assoc]

theorem Cursor.rest_skip (c : Cursor) : c.skip.rest = c.rest.dropWhile isSpace := by
  have hspaces : ∀ (p : Position) (cs : List Char), (skipSpaces p cs).rest = cs.dropWhile isSpace := by
    intro p cs
    induction cs generalizing p with
    | nil => rfl
    | cons c cs ih =>
      rw [skipSpaces]
      by_cases hc : isSpace c = true
      · rw [if_pos hc, ih, List.dropWhile_cons_of_pos hc]
      · rw [if_neg hc, List.dropWhile_cons_of_neg hc]
  exact hspaces c.position c.rest

/-- Skipping white space stops where there is none. -/
theorem Cursor.rest_skip_eq_iff {c : Cursor} {rest : List Char} :
    c.skip.rest = rest ↔ ∃ ws, Blank ws ∧ c.rest = ws ++ rest ∧ Stops isSpace rest := by
  rw [rest_skip]
  constructor
  · intro h
    obtain ⟨heq, hws, hrest⟩ := span_iff.mp ⟨rfl, h⟩
    exact ⟨_, blank_iff.mpr hws, heq, hrest⟩
  · rintro ⟨ws, hws, heq, hrest⟩
    exact (span_iff.mpr ⟨heq, blank_iff.mp hws, hrest⟩).2

theorem stops_blank_append {ws rest : List Char} (hws : Blank ws) (hrest : Stops isNumeralChar rest) :
    Stops isNumeralChar (ws ++ rest) := by
  cases ws with
  | nil => exact hrest
  | cons c ws =>
    refine stops_cons ?_
    rcases hws c List.mem_cons_self with rfl | rfl | rfl | rfl <;> decide

def Led {α : Type} (E : List Char → α → Prop) (cs : List Char) (a : α) : Prop :=
  ∃ ws ds, Blank ws ∧ E ds a ∧ cs = ws ++ ds

def Trailed {α : Type} (E : List Char → α → Prop) (cs : List Char) (a : α) : Prop :=
  ∃ ds ws, E ds a ∧ Blank ws ∧ cs = ds ++ ws

theorem padded_eq_trailed_led {α : Type} (E : List Char → α → Prop) : Padded E = Trailed (Led E) := by
  funext cs a
  refine propext ⟨?_, ?_⟩
  · rintro ⟨hws, ha, hws'⟩
    exact ⟨_, _, ⟨_, _, hws, ha, rfl⟩, hws', rfl⟩
  · rintro ⟨_, ws', ⟨ws, ds, hws, ha, rfl⟩, hws', rfl⟩
    exact .mk hws ha hws'

/-! ### Leaves -/

theorem string_sound {c : Cursor} {s : String} {rest : List Char} (hc : c.rest.head? = some '"')
    (h : Reads (string c) id s rest) : ∃ cs, StringText cs s ∧ c.rest = cs ++ rest := by
  unfold string at h
  split at h
  · exact absurd h not_reads_error
  · rename_i quote cs hrest
    split at h
    · exact absurd h not_reads_error
    · exact absurd h not_reads_error
    · rename_i body q left hscan
      split at h
      · exact absurd h not_reads_error
      · rename_i text hdecode
        obtain ⟨rfl, rfl⟩ := reads_ok_iff.mp h
        obtain ⟨rfl, hbody⟩ := scan_eq_ok_iff.mp ⟨q, hscan⟩
        rw [hrest, List.head?_cons, Option.some.injEq] at hc
        refine ⟨'"' :: (body ++ ['"']), .mk ?_, by simp [hrest, hc]⟩
        rw [id, String.toList_ofList]
        exact decode_eq_ok_iff.mp ⟨hdecode, hbody⟩

theorem string_complete {c : Cursor} {cs : List Char} {s : String} {rest : List Char}
    (h : StringText cs s) (hc : c.rest = cs ++ rest) : Reads (string c) id s rest := by
  cases h with
  | @mk body _ hbody =>
    obtain ⟨hdecode, hscanned⟩ := decode_eq_ok_iff (n := 1).mpr hbody
    obtain ⟨q, hscan⟩ := scan_append_quote hscanned (c.position.past '"') rest
    have htail : c.rest = '"' :: (body ++ '"' :: rest) := by simp [hc]
    unfold string
    split
    · rename_i hnil
      rw [htail] at hnil
      cases hnil
    · rename_i quote cs hcons
      obtain ⟨rfl, rfl⟩ : '"' = quote ∧ _ = cs := List.cons.inj (htail.symm.trans hcons)
      split
      · rename_i hfault
        rw [hscan] at hfault
        cases hfault
      · rename_i hfault
        rw [hscan] at hfault
        cases hfault
      · rename_i hscan'
        cases hscan.symm.trans hscan'
        split
        · rename_i hfault
          rw [hdecode] at hfault
          cases hfault
        · rename_i hdecode'
          cases hdecode.symm.trans hdecode'
          exact reads_ok_iff.mpr ⟨String.ofList_toList, rfl⟩

theorem number_sound {c : Cursor} {m : Number} {rest : List Char} (h : Reads (number c) id m rest) :
    ∃ cs, NumberText cs m ∧ c.rest = cs ++ rest := by
  unfold number at h
  split at h
  · exact absurd h not_reads_error
  · rename_i first cs hrest
    dsimp only at h
    split at h
    · exact absurd h not_reads_error
    · rename_i m hm
      obtain ⟨rfl, rfl⟩ := reads_ok_iff.mp h
      refine ⟨_, ofChars?_eq_some_iff_numberText.mp hm, ?_⟩
      rw [hrest, List.cons_append, List.takeWhile_append_dropWhile]

theorem number_complete {c : Cursor} {cs : List Char} {m : Number} {rest : List Char}
    (h : NumberText cs m) (hc : c.rest = cs ++ rest) (hrest : Stops isNumeralChar rest) :
    Reads (number c) id m rest := by
  have hchars := isNumeralChar_of_numberText h
  have hm := ofChars?_eq_some_iff_numberText.mpr h
  cases cs with
  | nil => cases hm
  | cons d ds =>
    obtain ⟨htake, hdrop⟩ := span_iff.mpr ⟨rfl, fun c hc => hchars c (List.mem_cons_of_mem d hc), hrest⟩
    unfold number
    split
    · rename_i hnil
      rw [hc] at hnil
      cases hnil
    · rename_i first left hcons
      obtain ⟨rfl, rfl⟩ : d = first ∧ ds ++ rest = left := List.cons.inj (hc.symm.trans hcons)
      dsimp only
      split
      · rename_i hfault
        rw [htake, hm] at hfault
        cases hfault
      · rename_i hm'
        rw [htake] at hm'
        cases hm.symm.trans hm'
        exact reads_ok_iff.mpr ⟨rfl, hdrop⟩

theorem word_sound {w : List Char} {c : Cursor} {u : Unit} {rest : List Char}
    (h : Reads (word w c) id u rest) : c.rest = w ++ rest := by
  unfold word at h
  split at h
  · rename_i hw
    obtain ⟨-, rfl⟩ := reads_ok_iff.mp h
    obtain ⟨left, hleft⟩ := hw.1
    rw [← hleft, List.drop_left]
  · exact absurd h not_reads_error

theorem word_complete {w : List Char} {c : Cursor} {rest : List Char} (hw : 0 < w.length)
    (hc : c.rest = w ++ rest) : Reads (word w c) id () rest := by
  rw [word, dif_pos ⟨⟨rest, hc.symm⟩, hw⟩]
  exact reads_ok_iff.mpr ⟨rfl, by rw [hc, List.drop_left]⟩

end ApiLint.Json
