import ApiLint.Proofs.Json.Movement

/-!
# A span covers its value

The span recorded for a node runs from the first character of the node to just past its last, and the
places of both ends are those of the text (`Json.exists_span?_covers`): a piece of the text without white space
around it lies in between, which read as a text of its own gives the value of the node.

That the piece is the text of the value is what is known of the reader of values at every node
(`exists_covered`): it takes off a production, moves past it, and keeps the points before and after as the
span.  A production may be read by itself, since a value that is allowed somewhere in a text is allowed at
the top (`ValueText.mono`).
-/

namespace ApiLint.Json

open Grammar

namespace Grammar

/-! ### More levels allow more -/

section Mono

variable {α : Type} {E E' : List Char → α → Prop}

theorem Padded.mono (hE : ∀ cs a, E cs a → E' cs a) {cs : List Char} {a : α} (h : Padded E cs a) :
    Padded E' cs a := by
  cases h with
  | mk hws ha hws' => exact .mk hws (hE _ _ ha) hws'

theorem Member.mono (hE : ∀ cs a, E cs a → E' cs a) {cs : List Char} {m : String × α} (h : Member E cs m) :
    Member E' cs m := by
  cases h with
  | mk hk ha => exact .mk hk (ha.mono hE)

theorem Separated.mono (hE : ∀ cs a, E cs a → E' cs a) {cs : List Char} {as : List α}
    (h : Separated E cs as) : Separated E' cs as := by
  induction h with
  | one ha => exact .one (hE _ _ ha)
  | more ha _ ih => exact .more (hE _ _ ha) ih

theorem Enclosed.mono {left right : Char} (hE : ∀ cs a, E cs a → E' cs a) {cs : List Char} {as : List α}
    (h : Enclosed left right E cs as) : Enclosed left right E' cs as := by
  cases h with
  | empty hws => exact .empty hws
  | entries has => exact .entries (has.mono hE)

end Mono

theorem ValueOver.mono {E E' : List Char → Value → Prop} (hE : ∀ cs v, E cs v → E' cs v) {cs : List Char}
    {v : Value} (h : ValueOver E cs v) : ValueOver E' cs v := by
  cases h with
  | null => exact .null
  | true => exact .true
  | false => exact .false
  | number hm => exact .number hm
  | string hs => exact .string hs
  | array ha => exact .array (ha.mono fun _ _ h => h.mono hE)
  | object ho hmembers => exact .object (ho.mono fun _ _ h => h.mono hE) hmembers

theorem ValueText.succ {n : Nat} {cs : List Char} {v : Value} (h : ValueText n cs v) :
    ValueText (n + 1) cs v := by
  induction n generalizing cs v with
  | zero => exact ValueOver.mono (fun _ _ h => h.elim) h
  | succ n ih => exact ValueOver.mono (fun _ _ h => ih h) h

theorem ValueText.mono {m n : Nat} (hmn : m ≤ n) {cs : List Char} {v : Value} (h : ValueText m cs v) :
    ValueText n cs v := by
  induction hmn with
  | refl => exact h
  | step _ ih => exact ih.succ

/-! ### No white space at the ends -/

theorem isSpace_of_isNumeralChar {c : Char} (h : isNumeralChar c = true) : isSpace c = false := by
  refine Bool.eq_false_iff.mpr fun hspace => ?_
  rw [isSpace] at hspace
  simp only [Bool.or_eq_true, decide_eq_true_eq] at hspace
  rcases hspace with ((rfl | rfl) | rfl) | rfl <;> exact absurd h (by decide)

theorem isSpace_last_of_enclosed {α : Type} {E : List Char → α → Prop} {left right : Char}
    (hright : Closing right) {cs : List Char} {as : List α} (h : Enclosed left right E cs as) {c : Char}
    (hc : cs.getLast? = some c) : isSpace c = false := by
  cases h with
  | empty | entries =>
    rw [← List.cons_append, List.getLast?_concat, Option.some.injEq] at hc
    rw [← hc]
    exact hright.not_space

theorem isSpace_last_of_valueOver {E : List Char → Value → Prop} {cs : List Char} {v : Value}
    (h : ValueOver E cs v) {c : Char} (hc : cs.getLast? = some c) : isSpace c = false := by
  cases h with
  | null | true | false =>
    cases hc
    decide
  | number hm =>
    cases hm with
    | mk hn _ =>
      exact isSpace_of_isNumeralChar (isNumeralChar_of_mem_numeralChars hn c (List.mem_of_getLast? hc))
  | string hs =>
    cases hs with
    | mk _ =>
      rw [← List.cons_append, List.getLast?_concat, Option.some.injEq] at hc
      rw [← hc]
      decide
  | array ha => exact isSpace_last_of_enclosed closing_bracket ha hc
  | object ho _ => exact isSpace_last_of_enclosed closing_brace ho hc

/-- There is no white space around the text of a value. -/
theorem isSpace_ends {n : Nat} {cs : List Char} {v : Value} (h : ValueText n cs v) (c : Char)
    (hc : cs.head? = some c ∨ cs.getLast? = some c) : isSpace c = false := by
  rcases hc with hc | hc
  · obtain ⟨d, ds, rfl, hd⟩ := exists_first_of_valueText h
    rw [List.head?_cons, Option.some.injEq] at hc
    rw [← hc]
    exact Bool.eq_false_iff.mpr fun hspace => not_isFirst (Or.inl hspace) hd
  · cases n with
    | zero => exact isSpace_last_of_valueOver h hc
    | succ n => exact isSpace_last_of_valueOver h hc

end Grammar

/-- The text of a value, read by itself, gives the value. -/
theorem exists_read_of_valueText {n : Nat} (hn : n ≤ 256) {cs : List Char} {v : Value}
    (h : ValueText n cs v) : ∃ part, read (String.ofList cs) = .ok part ∧ part.value = v := by
  have hblank : Blank [] := fun c hc => absurd hc List.not_mem_nil
  have htext : JsonText ([] ++ ([] ++ cs ++ [])) v := .mk (Or.inl rfl) (.mk hblank (h.mono hn) hblank)
  rw [List.append_nil] at htext
  exact exists_read_of_jsonText (by rwa [String.toList_ofList])

/-! ### Places -/

/-- From the start of a text, readers come to the points of the text. -/
theorem exists_mark_position (text : List Char) : ∃ mark,
    text = mark ++ (Cursor.ofText text).skipMark.rest ∧
      ∀ {cs : List Char} {c : Cursor}, (Cursor.ofText text).skipMark.Passes cs c →
        c.position = .ofBefore (mark ++ cs) := by
  cases text with
  | nil =>
    refine ⟨[], rfl, fun {cs c} h => ?_⟩
    have hcs : cs = [] := (List.append_eq_nil_iff.mp h.1.symm).1
    rw [h.2, hcs]
    rfl
  | cons m text =>
    by_cases hm : m = '\ufeff'
    · subst hm
      refine ⟨['\ufeff'], rfl, fun {cs c} h => ?_⟩
      rw [h.2]
      exact Position.afterAll_mark cs
    · have hskip : (Cursor.ofText (m :: text)).skipMark = Cursor.ofText (m :: text) := if_neg hm
      rw [hskip]
      refine ⟨[], rfl, fun {cs c} h => ?_⟩
      rw [h.2]
      refine Position.afterAll_start ?_
      cases cs with
      | nil => rfl
      | cons d cs =>
        obtain ⟨rfl, -⟩ := List.cons.inj h.1
        exact if_neg hm

/-- What is read as a value is the text of the value, and its span is where it was passed. -/
theorem exists_covered {n : Nat} {c d : Cursor} {w : Written} {further : d.rest.length < c.rest.length}
    (h : value (n + 1) c = .ok (w, ⟨d, further⟩)) :
    ∃ cs, ValueText n cs w.value ∧ c.skip.Passes cs d ∧ w.span = ⟨c.skip.position, d.position⟩ := by
  obtain ⟨_, ⟨ws, cs, hws, hcs, rfl⟩, hrest⟩ :=
    (recognizes_valueText n).sound (reads_of_eq_ok h Written.value)
  have hread := readFrom_of_value (moving_value n) h
  obtain ⟨first, rest, hfirst, hisFirst⟩ := exists_first_of_valueText hcs
  have hskip : c.skip.rest = cs ++ d.rest := by
    refine Cursor.rest_skip_eq_iff.mpr ⟨ws, hws, by rw [hrest, List.append_assoc], ?_⟩
    rw [hfirst]
    exact stops_cons (Bool.eq_false_iff.mpr fun hspace => not_isFirst (Or.inl hspace) hisFirst)
  exact ⟨cs, hcs, hread.moves.passes hskip, hread.span⟩

/-- The span covers the text of the value `v`: its ends are the points around a piece of the text, between
its offsets lie the bytes of the piece, and the piece has no white space around it and is read, by itself,
as `v`. -/
def Covers (span : Span) (text : String) (v : Value) : Prop :=
  ∃ before piece after, text.toList = before ++ piece ++ after ∧
    span.first = .ofBefore before ∧ span.last = .ofBefore (before ++ piece) ∧
    span.bytes text = (String.ofList piece).toUTF8 ∧
    (∀ c, piece.head? = some c ∨ piece.getLast? = some c → isSpace c = false) ∧
    ∃ part, read (String.ofList piece) = .ok part ∧ part.value = v

/-- The span of a node runs around a piece of the text, which is the text of the value of the node. -/
theorem exists_piece {text : String} {tree : Tree} (h : read text = .ok tree) {p : Path} {v : Value}
    (hv : tree.value.get? p = some v) : ∃ before piece after, text.toList = before ++ piece ++ after ∧
      tree.span? p = some ⟨.ofBefore before, .ofBefore (before ++ piece)⟩ ∧ ∃ n ≤ 256, ValueText n piece v := by
  obtain ⟨w, hw, rfl⟩ := read_eq_ok_iff.mp h
  rw [show (Tree.ofWritten w).value = w.value from rfl, Written.get?_value, Option.map_eq_some_iff] at hv
  obtain ⟨x, hx, rfl⟩ := hv
  unfold readWritten at hw
  split at hw
  · cases hw
  · rename_i w' d further hvalue
    obtain rfl : w' = w := by
      split at hw
      · exact Except.ok.inj hw
      · cases hw
    obtain ⟨levels, hlevels, c, e, _, ⟨skipped, hskipped⟩, hread⟩ := exists_value_of_get? hvalue hx
    cases levels with
    | zero =>
      rw [value] at hread
      cases hread
    | succ n =>
      obtain ⟨piece, hpiece, hpasses, hspan⟩ := exists_covered hread
      obtain ⟨mark, htext, hposition⟩ := exists_mark_position text.toList
      obtain ⟨blank, hblank⟩ := c.moves_skip
      have hfirst := hskipped.append hblank
      have hlast := hfirst.append hpasses
      refine ⟨mark ++ (skipped ++ blank), piece, e.rest, ?_, ?_, n, Nat.le_of_succ_le_succ hlevels, hpiece⟩
      · rw [htext, hlast.1]
        simp only [List.append_assoc]
      · rw [Tree.span?_ofWritten, hx, Option.map_some, hspan, hposition hfirst, hposition hlast,
          List.append_assoc mark]

/-- **The span of a node covers the text of its value, and nothing else**, whatever characters the text is
made of. -/
theorem exists_span?_covers {text : String} {tree : Tree} (h : read text = .ok tree) {p : Path} {v : Value}
    (hv : tree.value.get? p = some v) : ∃ span, tree.span? p = some span ∧ Covers span text v := by
  obtain ⟨before, piece, after, hsplit, hspan, n, hn, hpiece⟩ := exists_piece h hv
  exact ⟨_, hspan, before, piece, after, hsplit, rfl, rfl, extract_toUTF8 hsplit, isSpace_ends hpiece,
    exists_read_of_valueText hn hpiece⟩

/-- A string behind a byte order mark, characters of several bytes, an escape, a tab and a line break of two
characters. -/
theorem exists_span?_covers_mixed : ∃ tree v span,
    read "\ufeff[\t\"é\\n\",\r\n \x7b\"ü\":[1,\"😀\"]\x7d]" = .ok tree ∧
      tree.value.get? [.index 1, .key "ü", .index 1] = some v ∧ v.string? = some "😀" ∧
      tree.span? [.index 1, .key "ü", .index 1] = some span ∧
      Covers span "\ufeff[\t\"é\\n\",\r\n \x7b\"ü\":[1,\"😀\"]\x7d]" v := by
  have hread : ((read "\ufeff[\t\"é\\n\",\r\n \x7b\"ü\":[1,\"😀\"]\x7d]").toOption.bind fun t =>
      (t.value.get? [.index 1, .key "ü", .index 1]).bind Value.string?) = some "😀" := by
    decide +kernel
  cases htree : read "\ufeff[\t\"é\\n\",\r\n \x7b\"ü\":[1,\"😀\"]\x7d]" with
  | error e =>
    rw [htree] at hread
    cases hread
  | ok tree =>
    rw [htree, Except.toOption, Option.bind_some, Option.bind_eq_some_iff] at hread
    obtain ⟨v, hv, hstring⟩ := hread
    obtain ⟨span, hspan, hcovers⟩ := exists_span?_covers htree hv
    exact ⟨tree, v, span, rfl, hv, hstring, hspan, hcovers⟩

end ApiLint.Json
