import ApiLint.Proofs.Json.Containers

/-!
# The reader accepts the grammar

`Json.read` succeeds on the JSON texts and on nothing else, and what it returns is what the text denotes
(`read_iff`).

The first character of a value decides which reader takes it off, and each reader takes off the values
that start with its character (`value_sound`, `value_complete`).  So if a value with `n` levels left
recognizes some production, then with one level more it recognizes the values whose parts are such
(`recognizes_value`), and from there it is an induction on the levels (`recognizes_valueText`).  At the
outermost level a byte order mark and the end of the text are added.
-/

namespace ApiLint.Json

open Grammar

/-! ### Values -/

theorem spanned_reads_iff {c : Cursor} {α β : Type} {make : Span → α → Written} {read : Step c.skip α}
    {v : Value} {rest : List Char} (den : α → β) (f : β → Value)
    (hmake : ∀ s a, (make s a).value = f (den a)) :
    Reads (spanned c make read) Written.value v rest ↔ ∃ b, f b = v ∧ Reads read den b rest := by
  unfold spanned
  constructor
  · intro h
    split at h
    · exact absurd h not_reads_error
    · obtain ⟨rfl, rfl⟩ := reads_ok_iff.mp h
      exact ⟨_, (hmake _ _).symm, reads_of_eq_ok rfl den⟩
  · rintro ⟨_, rfl, a, d, hd, rfl, rfl, rfl⟩
    exact reads_ok_iff.mpr ⟨hmake _ a, rfl⟩

theorem value_of_skip {levels : Nat} {c : Cursor} {d : Char} {ds : List Char} (h : c.skip.rest = d :: ds) :
    value (levels + 1) c =
      if d = '\x7b' then
        spanned c .object (container '\x7d' .objectUnfinished (member (value levels)) c.skip)
      else if d = '[' then spanned c .array (container ']' .arrayUnfinished (value levels) c.skip)
      else if d = '"' then spanned c .string (string c.skip)
      else if d = 't' then spanned c (fun s _ => .bool s true) (word "true".toList c.skip)
      else if d = 'f' then spanned c (fun s _ => .bool s false) (word "false".toList c.skip)
      else if d = 'n' then spanned c (fun s _ => .null s) (word "null".toList c.skip)
      else if d = '-' || d.isDigit then spanned c .number (number c.skip)
      else c.skip.fail (.unexpectedCharacter d) := by
  rw [value, h]

def IsFirst (d : Char) : Prop :=
  d ∈ ['\x7b', '[', '"', 't', 'f', 'n'] ∨ (d = '-' || d.isDigit) = true

theorem exists_first_of_valueOver {E : List Char → Value → Prop} {cs : List Char} {v : Value}
    (h : ValueOver E cs v) : ∃ d ds, cs = d :: ds ∧ IsFirst d := by
  cases h with
  | null | true | false => exact ⟨_, _, rfl, by simp [IsFirst]⟩
  | number hm =>
    obtain ⟨d, ds, rfl, hd⟩ := numberText_first hm
    exact ⟨d, ds, rfl, Or.inr hd⟩
  | string hs =>
    cases hs
    exact ⟨_, _, rfl, by simp [IsFirst]⟩
  | array ha =>
    cases ha <;> exact ⟨_, _, rfl, by simp [IsFirst]⟩
  | object ho _ =>
    cases ho <;> exact ⟨_, _, rfl, by simp [IsFirst]⟩

theorem not_isFirst {d : Char} (h : isSpace d = true ∨ d = ']' ∨ d = '\ufeff') : ¬ IsFirst d := by
  rw [isSpace] at h
  unfold IsFirst
  simp only [Bool.or_eq_true, decide_eq_true_eq] at h
  rcases h with (((rfl | rfl) | rfl) | rfl) | rfl | rfl <;> decide

theorem closing_bracket : Closing ']' := ⟨by decide, by decide, by decide⟩

theorem closing_brace : Closing '\x7d' := ⟨by decide, by decide, by decide⟩

theorem value_object (s : Span) (ms : List (String × Written)) :
    (Written.object s ms).value = .object (lastMentions (ms.map memberValue)) := by
  rw [Written.value, Written.memberValues_eq_map]
  rfl

theorem value_array (s : Span) (ws : List Written) :
    (Written.array s ws).value = .array (ws.map Written.value) := by
  rw [Written.value, Written.values_eq_map]

section Level

variable {levels : Nat} {E : List Char → Value → Prop}

theorem value_sound (h : Recognizes (value levels) Written.value (Led E)) {c : Cursor} {v : Value}
    {rest : List Char} (hreads : Reads (value (levels + 1) c) Written.value v rest) :
    ∃ cs, Led (ValueOver E) cs v ∧ c.rest = cs ++ rest := by
  obtain ⟨ws, hws, hc, -⟩ := Cursor.rest_skip_eq_iff.mp (rfl : c.skip.rest = _)
  have hled : (∃ cs, ValueOver E cs v ∧ c.skip.rest = cs ++ rest) →
      ∃ cs, Led (ValueOver E) cs v ∧ c.rest = cs ++ rest := by
    rintro ⟨cs, hcs, hskip⟩
    exact ⟨ws ++ cs, ⟨ws, cs, hws, hcs, rfl⟩, by rw [hc, hskip, List.append_assoc]⟩
  apply hled
  cases hskip : c.skip.rest with
  | nil =>
    rw [value, hskip] at hreads
    exact absurd hreads not_reads_error
  | cons d ds =>
    rw [value_of_skip hskip] at hreads
    rw [← hskip]
    have hhead : c.skip.rest.head? = some d := by rw [hskip, List.head?_cons]
    -- one case for each reader that the first character may choose
    split at hreads
    · rename_i hd
      rw [hd] at hhead
      obtain ⟨ms, rfl, hms⟩ :=
        (spanned_reads_iff (List.map memberValue) (fun ms => .object (lastMentions ms)) value_object).mp hreads
      obtain ⟨cs, hcs, hrest⟩ := container_sound _ (recognizes_member h) closing_brace hhead hms
      rw [← member_eq_trailed_ledMember] at hcs
      exact ⟨cs, .object hcs (collected_iff.mpr rfl), hrest⟩
    split at hreads
    · rename_i hd
      rw [hd] at hhead
      obtain ⟨vs, rfl, hvs⟩ := (spanned_reads_iff (List.map Written.value) .array value_array).mp hreads
      obtain ⟨cs, hcs, hrest⟩ := container_sound _ h closing_bracket hhead hvs
      rw [← padded_eq_trailed_led] at hcs
      exact ⟨cs, .array hcs, hrest⟩
    split at hreads
    · rename_i hd
      rw [hd] at hhead
      obtain ⟨s, rfl, hs⟩ := (spanned_reads_iff id .string fun _ _ => rfl).mp hreads
      obtain ⟨cs, hcs, hrest⟩ := string_sound hhead hs
      exact ⟨cs, .string hcs, hrest⟩
    split at hreads
    · obtain ⟨u, rfl, hu⟩ := (spanned_reads_iff id (fun _ => .bool true) fun _ _ => rfl).mp hreads
      exact ⟨_, .true, word_sound hu⟩
    split at hreads
    · obtain ⟨u, rfl, hu⟩ := (spanned_reads_iff id (fun _ => .bool false) fun _ _ => rfl).mp hreads
      exact ⟨_, .false, word_sound hu⟩
    split at hreads
    · obtain ⟨u, rfl, hu⟩ := (spanned_reads_iff id (fun _ => .null) fun _ _ => rfl).mp hreads
      exact ⟨_, .null, word_sound hu⟩
    split at hreads
    · obtain ⟨m, rfl, hm⟩ := (spanned_reads_iff id .number fun _ _ => rfl).mp hreads
      obtain ⟨cs, hcs, hrest⟩ := number_sound hm
      exact ⟨cs, .number hcs, hrest⟩
    · exact absurd hreads not_reads_error

theorem firstNot_led (hfirst : ∀ cs v, E cs v → ∃ d ds, cs = d :: ds ∧ IsFirst d) (cs : List Char)
    (v : Value) (h : Led E cs v) : FirstNot ']' cs := by
  obtain ⟨ws, ds, hws, hv, rfl⟩ := h
  obtain ⟨d, ds, rfl, hd⟩ := hfirst ds v hv
  refine ⟨ws, d, ds, hws, rfl, ?_, ?_⟩
  · exact Bool.eq_false_iff.mpr fun h => not_isFirst (Or.inl h) hd
  · exact fun h => not_isFirst (Or.inr (Or.inl h)) hd

theorem value_complete (h : Recognizes (value levels) Written.value (Led E))
    (hfirst : ∀ cs v, E cs v → ∃ d ds, cs = d :: ds ∧ IsFirst d) {c : Cursor} {cs rest : List Char}
    {v : Value} (hcs : Led (ValueOver E) cs v) (hc : c.rest = cs ++ rest)
    (hrest : Stops isNumeralChar rest) : Reads (value (levels + 1) c) Written.value v rest := by
  obtain ⟨ws, ds, hws, hv, rfl⟩ := hcs
  obtain ⟨d, es, rfl, hd⟩ := exists_first_of_valueOver hv
  have hskip : c.skip.rest = d :: es ++ rest := by
    refine Cursor.rest_skip_eq_iff.mpr ⟨ws, hws, by rw [hc, List.append_assoc], stops_cons ?_⟩
    exact Bool.eq_false_iff.mpr fun h => not_isFirst (Or.inl h) hd
  rw [value_of_skip hskip]
  -- the tests in front of the one that the first character passes are closed characters
  cases hv with
  | null =>
    rw [if_neg (by decide), if_neg (by decide), if_neg (by decide), if_neg (by decide), if_neg (by decide),
      if_pos rfl, spanned_reads_iff id (fun _ => .null) fun _ _ => rfl]
    exact ⟨(), rfl, word_complete (by decide) hskip⟩
  | true =>
    rw [if_neg (by decide), if_neg (by decide), if_neg (by decide), if_pos rfl,
      spanned_reads_iff id (fun _ => .bool true) fun _ _ => rfl]
    exact ⟨(), rfl, word_complete (by decide) hskip⟩
  | false =>
    rw [if_neg (by decide), if_neg (by decide), if_neg (by decide), if_neg (by decide), if_pos rfl,
      spanned_reads_iff id (fun _ => .bool false) fun _ _ => rfl]
    exact ⟨(), rfl, word_complete (by decide) hskip⟩
  | number hm =>
    obtain ⟨_, _, heq, hd⟩ := numberText_first hm
    cases heq
    -- only here is the character not known, but it is none of those that are tested before
    have hne : ∀ e : Char, (e = '-' || e.isDigit) = false → d ≠ e := by
      rintro e he rfl
      rw [hd] at he
      exact Bool.noConfusion he
    rw [if_neg (hne _ (by decide)), if_neg (hne _ (by decide)), if_neg (hne _ (by decide)),
      if_neg (hne _ (by decide)), if_neg (hne _ (by decide)), if_neg (hne _ (by decide)), if_pos hd,
      spanned_reads_iff id .number fun _ _ => rfl]
    exact ⟨_, rfl, number_complete hm hskip hrest⟩
  | string hs =>
    obtain rfl : d = '"' := by
      cases hs
      rfl
    rw [if_neg (by decide), if_neg (by decide), if_pos rfl, spanned_reads_iff id .string fun _ _ => rfl]
    exact ⟨_, rfl, string_complete hs hskip⟩
  | array ha =>
    obtain rfl : d = '[' := by
      cases ha <;> rfl
    rw [padded_eq_trailed_led] at ha
    rw [if_neg (by decide), if_pos rfl, spanned_reads_iff (List.map Written.value) .array value_array]
    exact ⟨_, rfl, container_complete _ h closing_bracket (firstNot_led hfirst) ha hskip⟩
  | @object _ ms members ho hmembers =>
    obtain rfl : d = '\x7b' := by
      cases ho <;> rfl
    rw [member_eq_trailed_ledMember] at ho
    rw [if_pos rfl,
      spanned_reads_iff (List.map memberValue) (fun ms => .object (lastMentions ms)) value_object]
    refine ⟨ms, by rw [collected_iff.mp hmembers], ?_⟩
    exact container_complete _ (recognizes_member h) closing_brace firstNot_ledMember ho hskip

theorem recognizes_value (h : Recognizes (value levels) Written.value (Led E))
    (hfirst : ∀ cs v, E cs v → ∃ d ds, cs = d :: ds ∧ IsFirst d) :
    Recognizes (value (levels + 1)) Written.value (Led (ValueOver E)) :=
  ⟨value_sound h, value_complete h hfirst⟩

end Level

/-- Where no level is left, nothing is read. -/
theorem recognizes_value_zero : Recognizes (value 0) Written.value (Led fun _ _ => False) := by
  constructor
  · intro c v rest h
    rw [value] at h
    exact absurd h not_reads_error
  · rintro c _ v rest ⟨_, _, _, h, _⟩
    exact h.elim

theorem exists_first_of_valueText {n : Nat} {cs : List Char} {v : Value} (h : ValueText n cs v) :
    ∃ d ds, cs = d :: ds ∧ IsFirst d := by
  cases n with
  | zero => exact exists_first_of_valueOver h
  | succ n => exact exists_first_of_valueOver h

/-- **A value with `n + 1` levels left is read exactly if it has no part inside more than `n`
containers.** -/
theorem recognizes_valueText (n : Nat) : Recognizes (value (n + 1)) Written.value (Led (ValueText n)) := by
  induction n with
  | zero => exact recognizes_value recognizes_value_zero fun _ _ h => h.elim
  | succ n ih => exact recognizes_value ih fun _ _ h => exists_first_of_valueText h

/-! ### Texts -/

theorem exists_mark (c : Cursor) :
    ∃ mark, (mark = [] ∨ mark = ['\ufeff']) ∧ c.rest = mark ++ c.skipMark.rest := by
  unfold Cursor.skipMark
  split
  · exact ⟨[], Or.inl rfl, rfl⟩
  · rename_i m cs hc
    by_cases hm : m = '\ufeff'
    · rw [if_pos hm]
      exact ⟨['\ufeff'], Or.inr rfl, by rw [hc, hm]; rfl⟩
    · rw [if_neg hm]
      exact ⟨[], Or.inl rfl, rfl⟩

theorem rest_skipMark_of_mark {c : Cursor} {cs : List Char} (h : c.rest = '\ufeff' :: cs) :
    c.skipMark.rest = cs := by
  unfold Cursor.skipMark
  rw [h]
  rfl

theorem rest_skipMark_of_stops {c : Cursor} (h : Stops (fun d => decide (d = '\ufeff')) c.rest) :
    c.skipMark.rest = c.rest := by
  unfold Cursor.skipMark
  split
  · rfl
  · rename_i m cs hc
    rw [if_neg]
    exact of_decide_eq_false (h m (by rw [hc, List.head?_cons]))

/-- A value, with white space around it, does not start with a byte order mark. -/
theorem stops_mark {n : Nat} {cs : List Char} {v : Value} (h : Padded (ValueText n) cs v) :
    Stops (fun d => decide (d = '\ufeff')) cs := by
  cases h with
  | @mk ws ds ws' _ hws hv _ =>
    cases ws with
    | nil =>
      obtain ⟨d, es, rfl, hd⟩ := exists_first_of_valueText hv
      exact stops_cons (decide_eq_false fun h => not_isFirst (Or.inr (Or.inr h)) hd)
    | cons d ws =>
      refine stops_cons (decide_eq_false ?_)
      rcases hws d List.mem_cons_self with rfl | rfl | rfl | rfl <;> decide

theorem readWritten_sound {text : List Char} {w : Written} (h : readWritten text = .ok w) :
    JsonText text w.value := by
  unfold readWritten at h
  split at h
  · cases h
  · rename_i w' d further hvalue
    by_cases hend : d.skip.rest.isEmpty = true
    · rw [if_pos hend] at h
      cases h
      obtain ⟨mark, hmark, htext⟩ := exists_mark (Cursor.ofText text)
      obtain ⟨_, ⟨ws, cs, hws, hv, rfl⟩, hrest⟩ :=
        (recognizes_valueText 256).sound (reads_of_eq_ok hvalue Written.value)
      obtain ⟨ws', hws', hd, -⟩ := Cursor.rest_skip_eq_iff.mp (List.isEmpty_iff.mp hend)
      rw [List.append_nil] at hd
      rw [show text = _ from htext, hrest, hd]
      exact .mk hmark (.mk hws hv hws')
    · rw [if_neg hend] at h
      cases h

theorem readWritten_complete {text : List Char} {v : Value} (h : JsonText text v) :
    ∃ w, readWritten text = .ok w ∧ w.value = v := by
  cases h with
  | @mk mark cs _ hmark hcs =>
    have hskip : (Cursor.ofText (mark ++ cs)).skipMark.rest = cs := by
      rcases hmark with rfl | rfl
      · exact rest_skipMark_of_stops (stops_mark hcs)
      · exact rest_skipMark_of_mark rfl
    cases hcs with
    | @mk ws ds ws' _ hws hv hws' =>
      have hstop : Stops isNumeralChar ws' := by
        have := stops_blank_append hws' (stops_nil isNumeralChar)
        rwa [List.append_nil] at this
      obtain ⟨w, d, further, hvalue, rfl, hd⟩ :=
        (recognizes_valueText 256).complete ⟨ws, ds, hws, hv, rfl⟩ hskip hstop
      have hend : d.skip.rest = [] :=
        Cursor.rest_skip_eq_iff.mpr ⟨ws', hws', by rw [hd, List.append_nil], stops_nil isSpace⟩
      refine ⟨w, ?_, rfl⟩
      unfold readWritten
      rw [show maxDepth + 1 = 256 + 1 from rfl, hvalue]
      exact if_pos (List.isEmpty_iff.mpr hend)

/-- A text denotes at most one value. -/
theorem jsonText_unique {text : List Char} {v v' : Value} (h : JsonText text v) (h' : JsonText text v') :
    v = v' := by
  obtain ⟨w, hw, rfl⟩ := readWritten_complete h
  obtain ⟨w', hw', rfl⟩ := readWritten_complete h'
  cases hw.symm.trans hw'
  rfl

/-- What is read is what the text denotes. -/
theorem jsonText_of_read {text : String} {tree : Tree} (h : read text = .ok tree) :
    JsonText text.toList tree.value := by
  obtain ⟨w, hw, rfl⟩ := read_eq_ok_iff.mp h
  exact readWritten_sound hw

/-- A JSON text is read. -/
theorem exists_read_of_jsonText {text : String} {v : Value} (h : JsonText text.toList v) :
    ∃ tree, read text = .ok tree ∧ tree.value = v := by
  obtain ⟨w, hw, rfl⟩ := readWritten_complete h
  exact ⟨Tree.ofWritten w, read_eq_ok_iff.mpr ⟨w, hw, rfl⟩, rfl⟩

/-- **Reading succeeds on the JSON texts and on nothing else, and returns what they denote.** -/
theorem read_iff {text : String} {v : Value} :
    (∃ tree, read text = .ok tree ∧ tree.value = v) ↔ JsonText text.toList v := by
  constructor
  · rintro ⟨tree, h, rfl⟩
    exact jsonText_of_read h
  · intro h
    exact exists_read_of_jsonText h

end ApiLint.Json
