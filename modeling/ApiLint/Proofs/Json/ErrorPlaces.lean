import ApiLint.Proofs.Json.Spans

/-!
# The place that an error names

An error names a point of the text by its line, its column and its offset.  A reader looks for line feeds only where it
skips white space, so the three agree as long as it passes no line feed elsewhere.  It passes one in a string literal,
since the scan for the closing quote takes whatever is behind a backslash.  If the quote is found then, decoding fails
and the error is at the opening quote.  But if a control character comes first, the error is there, and its line and
column are counted on from the opening quote along one line (`Json.misplaced_behind_lineFeed`).

Nothing else is out of place (`Json.placed_of_read_error`).  This rests on one fact about every reader
(`Json.Faulting`): its errors are met where it has moved to, or in a literal that begins there.  An error in a container
is one of the loop over the entries, and the loop has moved up to the entry or delimiter that has the error
(`Json.faulting_entries`).
-/

namespace ApiLint

/-! ### Points along one line -/

theorem lastLine_append (bs : List Char) {cs : List Char} (h : '\n' ∉ cs) :
    lastLine (bs ++ cs) = lastLine bs ++ cs := by
  induction cs using List.reverseRecOn with
  | nil => rw [List.append_nil, List.append_nil]
  | append_singleton cs c ih =>
    rw [List.mem_append, not_or, List.mem_singleton] at h
    rw [← List.append_assoc, lastLine_concat _ (Ne.symm h.2), ih h.1, List.append_assoc]

theorem withoutMark_append {bs cs : List Char} (h : cs.head? ≠ some '\ufeff') :
    withoutMark (bs ++ cs) = withoutMark bs ++ cs := by
  cases bs with
  | cons b bs =>
    rw [List.cons_append, withoutMark, withoutMark]
    split <;> rfl
  | nil =>
    cases cs with
    | nil => rfl
    | cons c cs => exact if_neg fun hc => h (congrArg some hc)

namespace Position

theorem pastAll_eq (p : Position) (cs : List Char) :
    p.pastAll cs = ⟨p.line, p.column + cs.length, p.offset + byteSize cs⟩ := by
  induction cs generalizing p with
  | nil => rfl
  | cons c cs ih =>
    rw [pastAll_cons, ih, past, List.length_cons, byteSize_cons, Nat.add_assoc, Nat.add_assoc, Nat.add_comm 1]

/-- From a point of the text along its line. -/
theorem pastAll_ofBefore {before cs : List Char} (h : '\n' ∉ cs) (hmark : cs.head? ≠ some '\ufeff') :
    (ofBefore before).pastAll cs = ofBefore (before ++ cs) := by
  rw [pastAll_eq, ofBefore, ofBefore, withoutMark_append hmark, lastLine_append _ h, List.count_append,
    List.count_eq_zero.mpr h, List.length_append, byteSize_append, Nat.add_assoc, Nat.add_zero]

end Position

namespace Json

open Grammar StringLiteral

/-! ### Literals that are given up -/

/-- What stands in front of a control character in a string literal: the opening quote, and what the scan takes. -/
def GivenUp (cs : List Char) : Prop :=
  ∃ body, cs = '"' :: body ∧ Scanned false body

theorem exists_scanned_of_controlCharacter {p q : Position} {hidden : Bool} {cs rest : List Char}
    (h : scan p hidden cs = .error (.controlCharacter q rest)) :
    ∃ body, cs = body ++ rest ∧ q = p.pastAll body ∧ Scanned hidden body := by
  induction cs generalizing p hidden with
  | nil => cases h
  | cons c cs ih =>
    have hstep : ∀ {b : Bool}, (scan (p.past c) b cs).map (fun r => (c :: r.1, r.2))
        = .error (.controlCharacter q rest) →
        ∃ body, c :: cs = c :: body ++ rest ∧ q = p.pastAll (c :: body) ∧ Scanned b body := by
      intro b hb
      cases hs : scan (p.past c) b cs with
      | ok r =>
        rw [hs] at hb
        cases hb
      | error fault =>
        rw [hs] at hb
        obtain rfl := Except.error.inj hb
        obtain ⟨body, rfl, hq, hscanned⟩ := ih hs
        exact ⟨body, rfl, hq, hscanned⟩
    rw [scan] at h
    cases hidden with
    | true =>
      rw [if_pos rfl] at h
      obtain ⟨body, hcs, hq, hscanned⟩ := hstep h
      exact ⟨c :: body, hcs, hq, hscanned⟩
    | false =>
      rw [if_neg Bool.false_ne_true] at h
      split at h
      · cases h
      · rename_i hquote
        split at h
        · cases h
          exact ⟨[], rfl, rfl, rfl⟩
        · rename_i hcontrol
          obtain ⟨body, hcs, hq, hscanned⟩ := hstep h
          exact ⟨c :: body, hcs, hq, hquote, Nat.not_lt.mp hcontrol, hscanned⟩

/-- The scan takes a line feed only from behind a backslash. -/
theorem getLast?_of_scanned {hidden : Bool} {before after : List Char}
    (h : Scanned hidden (before ++ '\n' :: after)) :
    before = [] ∧ hidden = true ∨ before.getLast? = some '\\' := by
  induction before generalizing hidden with
  | nil =>
    cases hidden with
    | true => exact .inl ⟨rfl, rfl⟩
    | false => exact absurd h.2.1 (by decide)
  | cons c cs ih =>
    -- the character in front decides, if there is one, and otherwise `c` does
    have hnext : ∀ {b : Bool}, Scanned b (cs ++ '\n' :: after) → (b = true → c = '\\') →
        (c :: cs).getLast? = some '\\' := by
      intro b hb hc
      rcases ih hb with ⟨rfl, hhidden⟩ | hlast
      · rw [List.getLast?_singleton, hc hhidden]
      · cases cs with
        | nil => cases hlast
        | cons d ds => rwa [List.getLast?_cons_cons]
    cases hidden with
    | true => exact .inr (hnext h Bool.noConfusion)
    | false => exact .inr (hnext h.2.2 of_decide_eq_true)

theorem GivenUp.getLast? {before after : List Char} (h : GivenUp (before ++ '\n' :: after)) :
    before.getLast? = some '\\' := by
  obtain ⟨body, hbody, hscanned⟩ := h
  cases before with
  | nil => exact absurd (List.cons.inj hbody).1 (by decide)
  | cons c cs =>
    obtain ⟨-, rfl⟩ := List.cons.inj hbody
    rcases getLast?_of_scanned hscanned with ⟨-, hhidden⟩ | hlast
    · cases hhidden
    · cases cs with
      | nil => cases hlast
      | cons d ds => rwa [List.getLast?_cons_cons]

/-! ### Where an error is met -/

/-- The error is met at `c` after a move over `moved` and a scan of `literal`, with `rest` still in front. -/
structure MetAt (c : Cursor) (e : ReadError) (moved literal rest : List Char) : Prop where
  split : c.rest = moved ++ (literal ++ rest)
  position : e.position = (c.position.afterAll moved).pastAll literal
  length : e.length = if rest.isEmpty then 0 else 1
  givenUp : literal = [] ∨ e.problem = .controlCharacter ∧ GivenUp literal

def Met (c : Cursor) (e : ReadError) : Prop :=
  ∃ moved literal rest, MetAt c e moved literal rest

theorem Met.of_moves {c d : Cursor} {e : ReadError} (h : Met d e) (hmoves : c.Moves d) : Met c e := by
  obtain ⟨cs, hrest, hposition⟩ := hmoves
  obtain ⟨moved, literal, rest, hmet⟩ := h
  refine ⟨cs ++ moved, literal, rest, ?_, ?_, hmet.length, hmet.givenUp⟩
  · rw [hrest, hmet.split, List.append_assoc]
  · rw [hmet.position, hposition, Position.afterAll_append]

theorem met_of_fail {α : Type} {c : Cursor} {problem : Problem} {e : ReadError}
    (h : (c.fail problem : Except ReadError α) = .error e) : Met c e := by
  obtain rfl := Except.error.inj h
  exact ⟨[], [], c.rest, rfl, rfl, rfl, .inl rfl⟩

/-- Every error of the reader is met on the way from where it began. -/
def Faulting {α : Type} (read : (c : Cursor) → Step c α) : Prop :=
  ∀ {c : Cursor} {e : ReadError}, read c = .error e → Met c e

/-! ### Tokens -/

theorem met_of_string {c : Cursor} {e : ReadError} (hc : c.rest.head? = some '"') (h : string c = .error e) :
    Met c e := by
  unfold string at h
  split at h
  · exact met_of_fail h
  · rename_i quote cs hquote
    rw [hquote, List.head?_cons, Option.some.injEq] at hc
    split at h
    · exact met_of_fail h
    · rename_i q rest hscan
      obtain rfl := Except.error.inj h
      obtain ⟨body, rfl, hq, hscanned⟩ := exists_scanned_of_controlCharacter hscan
      refine ⟨[], quote :: body, rest, hquote, hq, rfl, .inr ⟨rfl, body, ?_, hscanned⟩⟩
      rw [hc]
    · split at h
      · exact met_of_fail h
      · cases h

theorem faulting_number : Faulting number := by
  intro c e h
  unfold number at h
  split at h
  · exact met_of_fail h
  · dsimp only at h
    split at h
    · exact met_of_fail h
    · cases h

theorem faulting_word (w : List Char) : Faulting (word w) := by
  intro c e h
  unfold word at h
  split at h
  · cases h
  · exact met_of_fail h

/-! ### Containers -/

section Containers

variable {α : Type} {close : Char} {problem : Problem} {entry : (c : Cursor) → Step c α}

theorem faulting_delimiter : Faulting (delimiter close problem) := by
  intro c e h
  unfold delimiter at h
  split at h
  · exact (met_of_fail h).of_moves c.moves_skip
  · dsimp only at h
    split at h
    · cases h
    · split at h
      · cases h
      · exact (met_of_fail h).of_moves c.moves_skip

/-- An error in the loop is that of an entry or a delimiter, where the loop has moved to. -/
theorem faulting_entries (hfaulting : Faulting entry) (hmoving : Moving entry) (hclose : Closing close) :
    Faulting (entries close problem entry) := by
  intro c e h
  fun_induction entries close problem entry c with
  | case1 c e' hentry =>
    obtain rfl := Except.error.inj h
    exact hfaulting hentry
  | case2 c a c₁ h₁ hentry e' hdelimiter =>
    obtain rfl := Except.error.inj h
    exact (faulting_delimiter hdelimiter).of_moves (hmoving hentry)
  | case3 | case5 => cases h
  | case4 c a c₁ h₁ hentry c₂ h₂ hdelimiter e' hentries ih =>
    obtain rfl := Except.error.inj h
    exact (ih hentries).of_moves ((hmoving hentry).trans (moves_delimiter hclose hdelimiter))

theorem faulting_afterBracket (hfaulting : Faulting entry) (hmoving : Moving entry) (hclose : Closing close) :
    Faulting (afterBracket close problem entry) := by
  intro c e h
  unfold afterBracket at h
  split at h
  · exact faulting_entries hfaulting hmoving hclose h
  · split at h
    · cases h
    · exact faulting_entries hfaulting hmoving hclose h

theorem met_of_container (hfaulting : Faulting entry) (hmoving : Moving entry) (hclose : Closing close)
    {c : Cursor} {e : ReadError} {left : Char} (hc : c.rest.head? = some left) (hleft : left ≠ '\n')
    (h : container close problem entry c = .error e) : Met c e := by
  unfold container at h
  split at h
  · exact met_of_fail h
  · rename_i bracket cs hrest
    split at h
    · rename_i e' hafter
      obtain rfl := Except.error.inj h
      rw [hrest, List.head?_cons, Option.some.injEq] at hc
      have hpast := Cursor.moves_past hrest (by rwa [hc])
      exact (faulting_afterBracket hfaulting hmoving hclose hafter).of_moves hpast
    · cases h

end Containers

theorem faulting_key : Faulting key := by
  intro c e h
  unfold key at h
  split at h
  · rename_i hquote
    split at h
    · rename_i e' hstring
      obtain rfl := Except.error.inj h
      exact (met_of_string hquote hstring).of_moves c.moves_skip
    · rename_i k c₁ h₁ hstring
      have hmoves : c.Moves c₁.skip :=
        (c.moves_skip.trans (moves_string hquote hstring)).trans c₁.moves_skip
      split at h
      · exact (met_of_fail h).of_moves hmoves
      · split at h
        · cases h
        · exact (met_of_fail h).of_moves hmoves
  · exact (met_of_fail h).of_moves c.moves_skip

theorem faulting_member {element : (c : Cursor) → Step c Written} (helement : Faulting element) :
    Faulting (member element) := by
  intro c e h
  unfold member at h
  split at h
  · rename_i e' hkey
    obtain rfl := Except.error.inj h
    exact faulting_key hkey
  · rename_i k c₁ h₁ hkey
    split at h
    · rename_i e' hvalue
      obtain rfl := Except.error.inj h
      exact (helement hvalue).of_moves (moves_key hkey)
    · cases h

/-! ### Values -/

theorem spanned_eq_error {α : Type} {c : Cursor} {make : Span → α → Written} {read : Step c.skip α}
    {e : ReadError} (h : spanned c make read = .error e) : read = .error e := by
  unfold spanned at h
  split at h
  · exact congrArg Except.error (Except.error.inj h)
  · cases h

/-- **Every error in a value is met on the way, or in a literal there.** -/
theorem faulting_value (levels : Nat) : Faulting (value levels) := by
  induction levels with
  | zero =>
    intro c e h
    exact (met_of_fail h).of_moves c.moves_skip
  | succ levels ih =>
    intro c e h
    have hmoving : Moving (value levels) := moving_value levels
    refine Met.of_moves ?_ c.moves_skip
    cases hskip : c.skip.rest with
    | nil =>
      rw [value, hskip] at h
      exact met_of_fail h
    | cons first rest =>
      rw [value_of_skip hskip] at h
      have hhead : c.skip.rest.head? = some first := by rw [hskip, List.head?_cons]
      split at h
      · rename_i hfirst
        rw [hfirst] at hhead
        exact met_of_container (faulting_member ih) (fun h => (moves_member hmoving h).1) closing_brace hhead
          (by decide) (spanned_eq_error h)
      split at h
      · rename_i hfirst
        rw [hfirst] at hhead
        exact met_of_container ih hmoving closing_bracket hhead (by decide) (spanned_eq_error h)
      split at h
      · rename_i hfirst
        rw [hfirst] at hhead
        exact met_of_string hhead (spanned_eq_error h)
      split at h
      · exact faulting_word _ (spanned_eq_error h)
      split at h
      · exact faulting_word _ (spanned_eq_error h)
      split at h
      · exact faulting_word _ (spanned_eq_error h)
      split at h
      · exact faulting_number (spanned_eq_error h)
      · exact met_of_fail h

theorem met_of_readWritten {text : List Char} {e : ReadError} (h : readWritten text = .error e) :
    Met (Cursor.ofText text).skipMark e := by
  unfold readWritten at h
  split at h
  · rename_i e' hvalue
    obtain rfl := Except.error.inj h
    exact faulting_value _ hvalue
  · rename_i w d further hvalue
    split at h
    · cases h
    · have hmoves : (Cursor.ofText text).skipMark.Moves d := moving_value _ hvalue
      exact ((met_of_fail h).of_moves d.moves_skip).of_moves hmoves

/-! ### Errors in a text -/

/-- Where the error splits the text: the readers moved over `before`, and scanned `literal` if that is not empty. -/
structure FailsAt (text : String) (e : ReadError) (before literal after : List Char) : Prop where
  split : text.toList = before ++ (literal ++ after)
  position : e.position = (Position.ofBefore before).pastAll literal
  length : e.length = if after.isEmpty then 0 else 1
  givenUp : literal = [] ∨ e.problem = .controlCharacter ∧ GivenUp literal

theorem exists_failsAt_of_read {text : String} {e : ReadError} (h : read text = .error e) :
    ∃ before literal after, FailsAt text e before literal after := by
  have hwritten : readWritten text.toList = .error e := by
    rw [read] at h
    cases hread : readWritten text.toList with
    | ok w =>
      rw [hread] at h
      cases h
    | error e' =>
      rw [hread] at h
      exact congrArg Except.error (Except.error.inj h)
  obtain ⟨mark, htext, hmark⟩ := exists_mark_position text.toList
  obtain ⟨moved, literal, after, hsplit, hposition, hlength, hgivenUp⟩ := met_of_readWritten hwritten
  have hmoved := hmark (c := ⟨_, literal ++ after⟩) ⟨hsplit, rfl⟩
  refine ⟨mark ++ moved, literal, after, ?_, ?_, hlength, hgivenUp⟩
  · rw [htext, hsplit, List.append_assoc]
  · rw [hposition, ← hmoved]
    rfl

namespace FailsAt

variable {text : String} {e : ReadError} {before literal after : List Char}

theorem offset (h : FailsAt text e before literal after) :
    e.position.offset = byteSize (before ++ literal) := by
  rw [h.position, Position.pastAll_eq, byteSize_append]
  rfl

/-- No error lies behind the end of the text. -/
theorem offset_le (h : FailsAt text e before literal after) : e.position.offset ≤ text.utf8ByteSize := by
  rw [h.offset, ← String.ofList_toList (s := text), utf8ByteSize_ofList, h.split, ← List.append_assoc,
    byteSize_append (before ++ literal)]
  exact Nat.le_add_right _ _

/-- The lines are counted rightly exactly if there are none to count in the literal. -/
theorem position_eq_iff (h : FailsAt text e before literal after) :
    e.position = .ofBefore (before ++ literal) ↔ '\n' ∉ literal := by
  rw [h.position]
  constructor
  · intro heq hmem
    have hline := congrArg Position.line heq
    have hcount : 0 < literal.count '\n' := List.count_pos_iff.mpr hmem
    rw [Position.pastAll_eq, Position.ofBefore, Position.ofBefore, List.count_append] at hline
    dsimp only at hline
    omega
  · intro hmem
    refine Position.pastAll_ofBefore hmem ?_
    rcases h.givenUp with rfl | ⟨-, body, rfl, -⟩
    · exact (Option.some_ne_none _).symm
    · rw [List.head?_cons]
      decide

theorem hidden (h : FailsAt text e before literal after) {front back : List Char}
    (hliteral : literal = front ++ '\n' :: back) :
    e.problem = .controlCharacter ∧ front.getLast? = some '\\' := by
  subst hliteral
  rcases h.givenUp with hnil | ⟨hproblem, hgivenUp⟩
  · exact absurd hnil (by simp)
  · exact ⟨hproblem, hgivenUp.getLast?⟩

end FailsAt

/-- **Line and column of an error are those of its offset, unless a string literal is given up in which a backslash
hides a line feed.**  Then they are counted from the opening quote as if there were no line feed. -/
theorem placed_of_read_error {text : String} {e : ReadError} (h : read text = .error e) :
    ∃ before literal after, FailsAt text e before literal after ∧
      e.position.offset = byteSize (before ++ literal) ∧
      (e.position = .ofBefore (before ++ literal) ↔ '\n' ∉ literal) ∧
      ∀ front back, literal = front ++ '\n' :: back →
        e.problem = .controlCharacter ∧ front.getLast? = some '\\' := by
  obtain ⟨before, literal, after, hfails⟩ := exists_failsAt_of_read h
  exact ⟨before, literal, after, hfails, hfails.offset, hfails.position_eq_iff, fun _ _ => hfails.hidden⟩

/-- A wrong word behind a byte order mark, a line feed, and a character of two bytes. -/
theorem placed_of_read_error_in_word : ∃ e before literal after,
    read "\ufeff[\n\"ü\", tru]" = .error e ∧ e.position = ⟨2, 6, 11⟩ ∧
      FailsAt "\ufeff[\n\"ü\", tru]" e before literal after ∧
      e.position.offset = byteSize (before ++ literal) ∧
      (e.position = .ofBefore (before ++ literal) ↔ '\n' ∉ literal) ∧
      ∀ front back, literal = front ++ '\n' :: back →
        e.problem = .controlCharacter ∧ front.getLast? = some '\\' := by
  have hread : (match read "\ufeff[\n\"ü\", tru]" with | .error e => some e.position | .ok _ => none)
      = some ⟨2, 6, 11⟩ := by
    decide +kernel
  cases he : read "\ufeff[\n\"ü\", tru]" with
  | ok tree =>
    rw [he] at hread
    cases hread
  | error e =>
    rw [he] at hread
    obtain ⟨before, literal, after, hplaced⟩ := placed_of_read_error he
    exact ⟨e, before, literal, after, rfl, Option.some.inj hread, hplaced⟩

/-- A quote, a backslash, a line feed and a tab.  The tab stands in front of everything else on the second line, and
is said to be the fourth character of the first. -/
theorem misplaced_behind_lineFeed : ∃ e, read "\"\\\n\t" = .error e ∧ e.problem = .controlCharacter ∧
    e.position = ⟨1, 4, 3⟩ ∧ Position.ofBefore ['"', '\\', '\n'] = ⟨2, 1, 3⟩ := by
  have hread : (match read "\"\\\n\t" with | .error e => some (e.problem, e.position) | .ok _ => none)
      = some (.controlCharacter, ⟨1, 4, 3⟩) := by
    decide +kernel
  cases he : read "\"\\\n\t" with
  | ok tree =>
    rw [he] at hread
    cases hread
  | error e =>
    rw [he, Option.some.injEq, Prod.mk.injEq] at hread
    exact ⟨e, rfl, hread.1, hread.2, by decide⟩

end Json

end ApiLint
