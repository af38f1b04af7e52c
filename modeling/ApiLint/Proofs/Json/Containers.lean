import ApiLint.Proofs.Json.Recognition

/-!
# Containers

The loop over the entries of a container is the same for arrays and objects, and so is what is proved
about it, for any reader of an entry that recognizes a production.

* `entries_sound`, `entries_complete`: up to the closing bracket, the loop takes off entries with commas
  between them, and whatever is such.  After a comma there has to be an entry again.
* `container_sound`, `container_complete`: with the brackets, there may be no entries too.  Which of the
  two it is shows at the first character, so an entry may not start with the closing bracket.
* `recognizes_member`: a name, a colon and a value make up a member, if the value is recognized.
-/

namespace ApiLint.Json

open Grammar

/-! ### Containers -/

/-- A bracket that ends a container, which nothing in front of it takes in. -/
structure Closing (close : Char) : Prop where
  ne_comma : close ≠ ','
  not_space : isSpace close = false
  not_numeral : isNumeralChar close = false

def Delimiter.char (close : Char) : Delimiter → Char
  | .comma => ','
  | .close => close

section Containers

variable {close : Char} (problem : Problem)

theorem delimiter_reads_iff (hclose : Closing close) {c : Cursor} {t : Delimiter} {rest : List Char} :
    Reads (delimiter close problem c) id t rest ↔
      ∃ ws, Blank ws ∧ c.rest = ws ++ t.char close :: rest := by
  constructor
  · intro h
    unfold delimiter at h
    split at h
    · exact absurd h not_reads_error
    · rename_i d cs hskip
      obtain ⟨ws, hws, hrest, -⟩ := Cursor.rest_skip_eq_iff.mp hskip
      refine ⟨ws, hws, ?_⟩
      dsimp only at h
      by_cases hd : d = ','
      · rw [if_pos hd] at h
        obtain ⟨rfl, rfl⟩ := reads_ok_iff.mp h
        rw [hrest, hd]
        rfl
      · rw [if_neg hd] at h
        by_cases hd' : d = close
        · rw [if_pos hd'] at h
          obtain ⟨rfl, rfl⟩ := reads_ok_iff.mp h
          rw [hrest, hd']
          rfl
        · rw [if_neg hd'] at h
          exact absurd h not_reads_error
  · rintro ⟨ws, hws, hrest⟩
    have hstop : isSpace (t.char close) = false := by
      cases t with
      | comma => exact (by decide : isSpace ',' = false)
      | close => exact hclose.not_space
    have hskip := Cursor.rest_skip_eq_iff.mpr ⟨ws, hws, hrest, stops_cons hstop⟩
    unfold delimiter
    split
    · rename_i hnil
      cases hskip.symm.trans hnil
    · rename_i d cs hcons
      obtain ⟨rfl, rfl⟩ := List.cons.inj (hskip.symm.trans hcons)
      dsimp only
      cases t with
      | comma =>
        rw [if_pos (show Delimiter.char close .comma = ',' from rfl)]
        exact reads_ok_iff.mpr ⟨rfl, rfl⟩
      | close =>
        rw [if_neg (show Delimiter.char close .close ≠ ',' from hclose.ne_comma),
          if_pos (show Delimiter.char close .close = close from rfl)]
        exact reads_ok_iff.mpr ⟨rfl, rfl⟩

variable {α β : Type} {entry : (c : Cursor) → Step c α} {den : α → β} {E : List Char → β → Prop}

theorem entries_sound (h : Recognizes entry den E) (hclose : Closing close) {c : Cursor} {bs : List β}
    {rest : List Char} (hreads : Reads (entries close problem entry c) (List.map den) bs rest) :
    ∃ cs, Separated (Trailed E) cs bs ∧ c.rest = cs ++ close :: rest := by
  fun_induction entries close problem entry c generalizing bs rest with
  | case1 | case2 | case4 => exact absurd hreads not_reads_error
  | case3 c a c₁ h₁ he c₂ h₂ hd =>
    obtain ⟨rfl, rfl⟩ := reads_ok_iff.mp hreads
    obtain ⟨ds, hds, hc⟩ := h.sound (reads_of_eq_ok he den)
    obtain ⟨ws, hws, hc₁⟩ := (delimiter_reads_iff problem hclose).mp (reads_of_eq_ok hd id)
    refine ⟨ds ++ ws, .one ⟨ds, ws, hds, hws, rfl⟩, ?_⟩
    rw [hc, hc₁, List.append_assoc]
    rfl
  | case5 c a c₁ h₁ he c₂ h₂ hd as c₃ h₃ hentries ih =>
    obtain ⟨rfl, rfl⟩ := reads_ok_iff.mp hreads
    obtain ⟨ds, hds, hc⟩ := h.sound (reads_of_eq_ok he den)
    obtain ⟨ws, hws, hc₁⟩ := (delimiter_reads_iff problem hclose).mp (reads_of_eq_ok hd id)
    obtain ⟨es, hes, hc₂⟩ := ih (reads_of_eq_ok hentries (List.map den))
    refine ⟨ds ++ ws ++ ',' :: es, .more ⟨ds, ws, hds, hws, rfl⟩ hes, ?_⟩
    rw [hc, hc₁, hc₂]
    simp [Delimiter.char]

/-- An entry is read up to the delimiter, which is read next. -/
theorem exists_reads_delimiter (h : Recognizes entry den E) (hclose : Closing close) {c : Cursor}
    {cs rest : List Char} {b : β} {t : Delimiter} (hcs : Trailed E cs b)
    (hc : c.rest = cs ++ t.char close :: rest) :
    ∃ a c₁ h₁ c₂ h₂, entry c = .ok (a, ⟨c₁, h₁⟩) ∧ delimiter close problem c₁ = .ok (t, ⟨c₂, h₂⟩) ∧
      den a = b ∧ c₂.rest = rest := by
  obtain ⟨ds, ws, hds, hws, rfl⟩ := hcs
  rw [List.append_assoc] at hc
  have hstop : Stops isNumeralChar (t.char close :: rest) := by
    cases t with
    | comma => exact stops_cons (by decide : isNumeralChar ',' = false)
    | close => exact stops_cons hclose.not_numeral
  obtain ⟨a, c₁, h₁, he, hb, hc₁⟩ := h.complete hds hc (stops_blank_append hws hstop)
  obtain ⟨t', c₂, h₂, hd, rfl, hc₂⟩ := (delimiter_reads_iff problem hclose).mpr ⟨ws, hws, hc₁⟩
  exact ⟨a, c₁, h₁, c₂, h₂, he, hd, hb, hc₂⟩

theorem entries_complete (h : Recognizes entry den E) (hclose : Closing close) {c : Cursor}
    {cs rest : List Char} {bs : List β} (hcs : Separated (Trailed E) cs bs)
    (hc : c.rest = cs ++ close :: rest) : Reads (entries close problem entry c) (List.map den) bs rest := by
  induction hcs generalizing c with
  | one hb =>
    obtain ⟨a, c₁, h₁, c₂, h₂, he, hd, rfl, hrest⟩ :=
      exists_reads_delimiter problem (t := .close) h hclose hb hc
    rw [entries]
    simp only [he, hd]
    exact reads_ok_iff.mpr ⟨rfl, hrest⟩
  | @more cs es b bs hb _ ih =>
    rw [List.append_assoc] at hc
    -- the comma takes the loop into the next entry, where the induction goes on
    obtain ⟨a, c₁, h₁, c₂, h₂, he, hd, rfl, hc₂⟩ :=
      exists_reads_delimiter problem (t := .comma) h hclose hb hc
    obtain ⟨as, c₃, h₃, hentries, rfl, hrest⟩ := ih hc₂
    rw [entries]
    simp only [he, hd, hentries]
    exact reads_ok_iff.mpr ⟨rfl, hrest⟩

theorem afterBracket_sound (h : Recognizes entry den E) (hclose : Closing close) (left : Char) {c : Cursor}
    {bs : List β} {rest : List Char}
    (hreads : Reads (afterBracket close problem entry c) (List.map den) bs rest) :
    ∃ cs, Enclosed left close (Trailed E) (left :: (cs ++ [close])) bs ∧ c.rest = cs ++ close :: rest := by
  -- at the end of the text the loop is entered as well, and fails there
  have hentries : Reads (entries close problem entry c) (List.map den) bs rest →
      ∃ cs, Enclosed left close (Trailed E) (left :: (cs ++ [close])) bs ∧ c.rest = cs ++ close :: rest := by
    intro hreads
    obtain ⟨cs, hcs, hc⟩ := entries_sound problem h hclose hreads
    exact ⟨cs, .entries hcs, hc⟩
  unfold afterBracket at hreads
  split at hreads
  · exact hentries hreads
  · rename_i d cs hskip
    by_cases hd : d = close
    · rw [if_pos hd] at hreads
      obtain ⟨rfl, rfl⟩ := reads_ok_iff.mp hreads
      obtain ⟨ws, hws, hc, -⟩ := Cursor.rest_skip_eq_iff.mp hskip
      refine ⟨ws, .empty hws, ?_⟩
      rw [hc, hd]
    · rw [if_neg hd] at hreads
      exact hentries hreads

theorem afterBracket_blank (hclose : Closing close) {c : Cursor} {ws rest : List Char} (hws : Blank ws)
    (hc : c.rest = ws ++ close :: rest) :
    Reads (afterBracket close problem entry c) (List.map den) [] rest := by
  have hskip := Cursor.rest_skip_eq_iff.mpr ⟨ws, hws, hc, stops_cons hclose.not_space⟩
  unfold afterBracket
  split
  · rename_i hnil
    cases hskip.symm.trans hnil
  · rename_i d cs hcons
    obtain ⟨rfl, rfl⟩ := List.cons.inj (hskip.symm.trans hcons)
    rw [if_pos rfl]
    exact reads_ok_iff.mpr ⟨rfl, rfl⟩

/-- After white space, there is something other than `close`. -/
def FirstNot (close : Char) (cs : List Char) : Prop :=
  ∃ ws d ds, Blank ws ∧ cs = ws ++ d :: ds ∧ isSpace d = false ∧ d ≠ close

theorem FirstNot.append {cs : List Char} (h : FirstNot close cs) (rest : List Char) :
    FirstNot close (cs ++ rest) := by
  obtain ⟨ws, d, ds, hws, rfl, hd⟩ := h
  exact ⟨ws, d, ds ++ rest, hws, by simp, hd⟩

theorem FirstNot.of_separated (hfirst : ∀ cs b, E cs b → FirstNot close cs) {cs : List Char} {bs : List β}
    (h : Separated (Trailed E) cs bs) : FirstNot close cs := by
  cases h with
  | one hb =>
    obtain ⟨ds, ws, hds, -, rfl⟩ := hb
    exact (hfirst ds _ hds).append ws
  | more hb _ =>
    obtain ⟨ds, ws, hds, -, rfl⟩ := hb
    exact ((hfirst ds _ hds).append ws).append _

theorem afterBracket_eq_entries {c : Cursor} (hc : FirstNot close c.rest) :
    afterBracket close problem entry c = entries close problem entry c := by
  obtain ⟨ws, d, ds, hws, hrest, hspace, hd⟩ := hc
  have hskip := Cursor.rest_skip_eq_iff.mpr ⟨ws, hws, hrest, stops_cons hspace⟩
  unfold afterBracket
  split
  · rfl
  · rename_i d' cs hcons
    obtain ⟨rfl, -⟩ := List.cons.inj (hskip.symm.trans hcons)
    rw [if_neg hd]

/-- **What is taken off by the reader of a container is entries in brackets.** -/
theorem container_sound (h : Recognizes entry den E) (hclose : Closing close) {left : Char} {c : Cursor}
    {bs : List β} {rest : List Char} (hc : c.rest.head? = some left)
    (hreads : Reads (container close problem entry c) (List.map den) bs rest) :
    ∃ cs, Enclosed left close (Trailed E) cs bs ∧ c.rest = cs ++ rest := by
  unfold container at hreads
  split at hreads
  · exact absurd hreads not_reads_error
  · rename_i bracket cs hrest
    split at hreads
    · exact absurd hreads not_reads_error
    · rename_i as d further hafter
      obtain ⟨rfl, rfl⟩ := reads_ok_iff.mp hreads
      obtain ⟨ds, hds, hcs⟩ :=
        afterBracket_sound problem h hclose left (reads_of_eq_ok hafter (List.map den))
      refine ⟨_, hds, ?_⟩
      rw [hrest, List.head?_cons, Option.some.injEq] at hc
      rw [hrest, hc, show cs = _ from hcs]
      simp

/-- **The reader of a container takes off whatever is entries in brackets.** -/
theorem container_complete (h : Recognizes entry den E) (hclose : Closing close) {left : Char}
    (hfirst : ∀ cs b, E cs b → FirstNot close cs) {c : Cursor} {cs rest : List Char} {bs : List β}
    (hcs : Enclosed left close (Trailed E) cs bs) (hc : c.rest = cs ++ rest) :
    Reads (container close problem entry c) (List.map den) bs rest := by
  have hafter : ∃ ds, c.rest = left :: ds ∧
      Reads (afterBracket close problem entry ⟨c.position.past left, ds⟩) (List.map den) bs rest := by
    cases hcs with
    | @empty ws hws =>
      refine ⟨ws ++ close :: rest, by simp [hc], ?_⟩
      exact afterBracket_blank problem hclose hws rfl
    | @entries ds _ hds =>
      refine ⟨ds ++ close :: rest, by simp [hc], ?_⟩
      rw [afterBracket_eq_entries problem ((FirstNot.of_separated hfirst hds).append _)]
      exact entries_complete problem h hclose hds rfl
  obtain ⟨ds, hcons, as, d, further, hafter, rfl, rfl⟩ := hafter
  unfold container
  split
  · rename_i hnil
    cases hcons.symm.trans hnil
  · rename_i bracket cs hcons'
    obtain ⟨rfl, rfl⟩ := List.cons.inj (hcons.symm.trans hcons')
    split
    · rename_i hfault
      cases hafter.symm.trans hfault
    · rename_i hok
      cases hafter.symm.trans hok
      exact reads_ok_iff.mpr ⟨rfl, rfl⟩

end Containers

/-! ### Members -/

theorem key_sound {c : Cursor} {k : String} {rest : List Char} (h : Reads (key c) id k rest) :
    ∃ cs, Padded StringText cs k ∧ c.rest = cs ++ ':' :: rest := by
  unfold key at h
  split at h
  · rename_i hquote
    split at h
    · exact absurd h not_reads_error
    · rename_i k c₁ h₁ hstring
      split at h
      · exact absurd h not_reads_error
      · rename_i d cs hskip
        by_cases hd : d = ':'
        · rw [if_pos hd] at h
          obtain ⟨rfl, rfl⟩ := reads_ok_iff.mp h
          obtain ⟨ks, hks, hc⟩ := string_sound hquote (reads_of_eq_ok hstring id)
          obtain ⟨ws, hws, hc', -⟩ := Cursor.rest_skip_eq_iff.mp hc
          obtain ⟨ws', hws', hc₁, -⟩ := Cursor.rest_skip_eq_iff.mp hskip
          refine ⟨ws ++ ks ++ ws', .mk hws hks hws', ?_⟩
          rw [hc', hc₁, hd]
          simp
        · rw [if_neg hd] at h
          exact absurd h not_reads_error
  · exact absurd h not_reads_error

theorem key_complete {c : Cursor} {cs : List Char} {k : String} {rest : List Char}
    (h : Padded StringText cs k) (hc : c.rest = cs ++ ':' :: rest) : Reads (key c) id k rest := by
  cases h with
  | @mk ws ks ws' _ hws hks hws' =>
    obtain ⟨body, hbody⟩ : ∃ body, ks = '"' :: body := by
      cases hks
      exact ⟨_, rfl⟩
    have hskip : c.skip.rest = ks ++ (ws' ++ ':' :: rest) := by
      refine Cursor.rest_skip_eq_iff.mpr ⟨ws, hws, by simp [hc], ?_⟩
      rw [hbody]
      exact stops_cons (by decide)
    obtain ⟨_, c₁, h₁, hstring, rfl, hc₁⟩ := string_complete hks hskip
    have hskip₁ := Cursor.rest_skip_eq_iff.mpr
      ⟨ws', hws', hc₁, stops_cons (by decide : isSpace ':' = false)⟩
    unfold key
    rw [if_pos (by rw [hskip, hbody]; rfl)]
    simp only [hstring]
    split
    · rename_i hnil
      cases hskip₁.symm.trans hnil
    · rename_i d cs hcons
      obtain ⟨rfl, rfl⟩ := List.cons.inj (hskip₁.symm.trans hcons)
      rw [if_pos rfl]
      exact reads_ok_iff.mpr ⟨rfl, rfl⟩

/-- A member up to the end of its value. -/
def LedMember {α : Type} (E : List Char → α → Prop) (cs : List Char) (m : String × α) : Prop :=
  ∃ ks ds, Padded StringText ks m.1 ∧ Led E ds m.2 ∧ cs = ks ++ ':' :: ds

theorem member_eq_trailed_ledMember {α : Type} (E : List Char → α → Prop) :
    Member E = Trailed (LedMember E) := by
  funext cs m
  refine propext ⟨?_, ?_⟩
  · intro h
    cases h with
    | @mk ks ds k a hk ha =>
      rw [padded_eq_trailed_led] at ha
      obtain ⟨es, ws, hes, hws, rfl⟩ := ha
      exact ⟨ks ++ ':' :: es, ws, ⟨ks, es, hk, hes, rfl⟩, hws, by simp⟩
  · rintro ⟨_, ws, ⟨ks, es, hk, hes, rfl⟩, hws, rfl⟩
    have ha : Padded E (es ++ ws) m.2 := by
      rw [padded_eq_trailed_led]
      exact ⟨es, ws, hes, hws, rfl⟩
    have := Member.mk hk ha
    rwa [← List.cons_append, ← List.append_assoc] at this

theorem firstNot_ledMember {E : List Char → Value → Prop} (cs : List Char) (m : String × Value)
    (h : LedMember E cs m) : FirstNot '\x7d' cs := by
  obtain ⟨ks, ds, hk, -, rfl⟩ := h
  cases hk with
  | @mk ws _ ws' _ hws hks hws' =>
    cases hks with
    | @mk body _ hbody =>
      exact ⟨ws, '"', body ++ '"' :: (ws' ++ ':' :: ds), hws, by simp, by decide, by decide⟩

def memberValue (m : String × Written) : String × Value :=
  (m.1, m.2.value)

theorem recognizes_member {element : (c : Cursor) → Step c Written} {E : List Char → Value → Prop}
    (h : Recognizes element Written.value (Led E)) :
    Recognizes (member element) memberValue (LedMember E) := by
  constructor
  · intro c m rest hreads
    unfold member at hreads
    split at hreads
    · exact absurd hreads not_reads_error
    · rename_i k c₁ h₁ hkey
      split at hreads
      · exact absurd hreads not_reads_error
      · rename_i w c₂ h₂ helement
        obtain ⟨rfl, rfl⟩ := reads_ok_iff.mp hreads
        obtain ⟨ks, hks, hc⟩ := key_sound (reads_of_eq_ok hkey id)
        obtain ⟨ds, hds, hc₁⟩ := h.sound (reads_of_eq_ok helement Written.value)
        refine ⟨_, ⟨ks, ds, hks, hds, rfl⟩, ?_⟩
        rw [hc, hc₁, List.append_assoc]
        rfl
  · rintro c _ ⟨k, v⟩ rest ⟨ks, ds, hk, hds, rfl⟩ hc hrest
    rw [List.append_assoc] at hc
    obtain ⟨_, c₁, h₁, hkey, rfl, hc₁⟩ := key_complete hk hc
    obtain ⟨w, c₂, h₂, helement, rfl, rfl⟩ := h.complete hds hc₁ hrest
    unfold member
    simp only [hkey, helement]
    exact reads_ok_iff.mpr ⟨rfl, rfl⟩

end ApiLint.Json
