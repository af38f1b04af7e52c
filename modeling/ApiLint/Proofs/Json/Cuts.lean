import ApiLint.Proofs.Json.BytePlaces

/-!
# No text is cut in a wrong place

Reading the bytes of a text comes to what reading its characters comes to (`Bytewise.read_eq`).  So the reader of bytes
never stops at a cut or at a difference of offsets, whatever the text, and its errors are within the text
(`Bytewise.read_never_badCut`).

The one reader that looks where no character begins is the scan for the closing quote.  It may come into a character
behind a backslash, but the bytes in there are neither a quote nor a backslash nor a control character, so it goes on to
the end of the character (`Bytewise.scan_inside`); and where it comes to the end of the text, or behind it, the error is
at the opening quote.  So it agrees with the scan over characters (`Bytewise.scan_eq`).

The other readers look at the start of a character, and see of it what they have to know.  They agree as long as those
that they call do, which for the loop over the entries of a container is an induction along the loop over characters
(`Bytewise.agreeing_entries`), and for values one on the levels of nesting (`Bytewise.agreeing_value`).
-/

namespace ApiLint.Json.Bytewise

open Grammar

variable {text : String}

/-! ### The closing quote -/

def inBytes (text : String) : Except StringLiteral.ScanFault (List Char × Position × List Char) → Except Missing Nat
  | .error .unterminated => .error .unterminated
  | .error (.controlCharacter _ rest) => .error (.controlCharacter (text.utf8ByteSize - byteSize rest))
  | .ok (_, _, rest) => .ok (text.utf8ByteSize - byteSize rest)

theorem inBytes_map (text : String) (d : Char)
    (r : Except StringLiteral.ScanFault (List Char × Position × List Char)) :
    inBytes text (r.map fun t => (d :: t.1, t.2)) = inBytes text r := by
  match r with
  | .error .unterminated | .error (.controlCharacter _ _) | .ok _ => rfl

/-- From inside of a character, the scan comes to the end of the character. -/
theorem scan_inside {before after : List Char} {d : Char} (h : text.toList = before ++ d :: after)
    (hd : 128 ≤ d.toNat) {k : Nat} (hk : k ≤ d.utf8Size) :
    scan text (byteSize before + k) = scan text (byteSize before + d.utf8Size) := by
  -- the induction is on the number of bytes up to the end
  induction hn : d.utf8Size - k generalizing k with
  | zero =>
    have heq : k = d.utf8Size := by omega
    rw [heq]
  | succ n ih =>
    obtain ⟨b, hb, hlarge⟩ := exists_byte?_inside h (show k < d.utf8Size by omega) hd
    have hne : ∀ a : UInt8, a.toNat < 128 → b ≠ a := by
      rintro a ha rfl
      omega
    rw [scan_of_some hb, if_neg (hne _ (by decide)), if_neg (hne _ (by decide)), if_neg (by omega), Nat.add_assoc]
    exact ih (by omega) (by omega)

/-- One byte behind the start of a character that is passed, the scan goes on as from the end of the character. -/
theorem scan_behind {before after : List Char} {d : Char} (h : text.toList = before ++ d :: after) :
    scan text (byteSize before + 1) = scan text (byteSize (before ++ [d])) := by
  have hsize : byteSize (before ++ [d]) = byteSize before + d.utf8Size := byteSize_append before [d]
  rw [hsize]
  by_cases hd : d.toNat < 128
  · rw [utf8Size_eq_one hd]
  · exact scan_inside h (Nat.le_of_not_lt hd) d.utf8Size_pos

/-- **The scan over bytes finds what the scan over characters finds.**  Where a character is hidden, the scan over bytes
is one byte further. -/
theorem scan_eq {before cs : List Char} (h : text.toList = before ++ cs) (p : Position) (hidden : Bool) :
    scan text (byteSize before + if hidden then 1 else 0) = inBytes text (StringLiteral.scan p hidden cs) := by
  have hsize : text.utf8ByteSize = byteSize before + byteSize cs := by
    rw [utf8ByteSize_eq_byteSize, h, byteSize_append]
  induction cs generalizing before p hidden with
  | nil =>
    rw [byteSize_nil] at hsize
    rw [scan_of_none (byte?_eq_none (by omega))]
    rfl
  | cons d cs ih =>
    have hsplit : text.toList = before ++ [d] ++ cs := by rw [h, List.append_assoc, List.singleton_append]
    have hrest : text.utf8ByteSize = byteSize (before ++ [d]) + byteSize cs := by
      rw [hsize, byteSize_cons, byteSize_append, byteSize_cons, byteSize_nil, Nat.add_zero, Nat.add_assoc]
    -- how both scans go on behind `d`
    have hnext : ∀ b, scan text (byteSize (before ++ [d]) + if b then 1 else 0)
        = inBytes text (StringLiteral.scan (p.past d) b cs) := fun b => ih hsplit _ _ hrest
    rw [StringLiteral.scan]
    cases hidden with
    | true =>
      rw [if_pos rfl, if_pos rfl, inBytes_map, scan_behind h]
      exact hnext false
    | false =>
      obtain ⟨b, hb, hopens⟩ := exists_byte?_opens h
      have hcontrol : b.toNat < 0x20 ↔ d.toNat < 0x20 := by
        rcases hopens with hopens | hopens <;> omega
      rw [if_neg Bool.false_ne_true, if_neg Bool.false_ne_true, Nat.add_zero, scan_of_some hb]
      simp only [hopens.eq_iff (show '"'.toNat < 128 by decide), hopens.eq_iff (show '\\'.toNat < 128 by decide),
        hcontrol]
      by_cases hquote : d = '"'
      · have hone : d.utf8Size = 1 := by rw [hquote]; rfl
        rw [if_pos hquote, if_pos hquote, inBytes, Except.ok.injEq, hsize, byteSize_cons, hone]
        omega
      rw [if_neg hquote, if_neg hquote]
      by_cases hslash : d = '\\'
      · have hsmall : ¬ d.toNat < 0x20 := by rw [hslash]; decide
        have hone : byteSize (before ++ [d]) = byteSize before + 1 := by
          rw [hslash, byteSize_append]
          rfl
        have hhidden := hnext true
        rw [if_pos rfl, hone] at hhidden
        rw [if_pos hslash, if_neg hsmall, inBytes_map, decide_eq_true hslash]
        exact hhidden
      rw [if_neg hslash]
      by_cases hsmall : d.toNat < 0x20
      · rw [if_pos hsmall, if_pos hsmall, inBytes, hsize, Nat.add_sub_cancel]
      · rw [if_neg hsmall, if_neg hsmall, inBytes_map, decide_eq_false hslash, scan_behind h]
        exact hnext false

/-! ### Leaves -/

section Leaves

variable {s : State} {c : Cursor}

theorem StandsAt.scan_eq {cs : List Char} (h : StandsAt text s c) (hrest : c.rest = '"' :: cs) :
    scan text (s.offset + 1) = inBytes text (StringLiteral.scan (c.position.past '"') false cs) := by
  obtain ⟨before, line, h⟩ := h
  have hsplit : text.toList = before ++ line ++ ['"'] ++ cs := by
    rw [h.split, hrest, List.append_assoc _ _ cs, List.singleton_append]
  have hscan := Bytewise.scan_eq hsplit (c.position.past '"') false
  rw [byteSize_append, ← h.offset] at hscan
  exact hscan

section Literal

variable {body rest : List Char} (h : StandsAt text s c) (hrest : c.rest = '"' :: (body ++ ['"']) ++ rest)

include h hrest

theorem StandsAt.literal_of_ok {cs : List Char} (hdecode : StringLiteral.decode 1 body = .ok cs) :
    literal text s (s.offset + byteSize ('"' :: (body ++ ['"']))) = .ok (String.ofList cs) := by
  simp only [literal, h.cut_eq hrest, String.toList_ofList, List.tail_cons, List.dropLast_concat, hdecode]

theorem StandsAt.literal_of_error {fault : StringLiteral.Fault} (hdecode : StringLiteral.decode 1 body = .error fault) :
    literal text s (s.offset + byteSize ('"' :: (body ++ ['"']))) =
      fail text s (.invalidString fault.1 (StringLiteral.faultPlace body fault).1
        (StringLiteral.faultPlace body fault).2) := by
  simp only [literal, h.cut_eq hrest, String.toList_ofList, List.tail_cons, List.dropLast_concat, hdecode]

end Literal

theorem agrees_string (h : StandsAt text s c) (hc : c.rest.head? = some '"') :
    Agrees text (string text s) (Json.string c) := by
  unfold Json.string
  split
  · rename_i hnil
    rw [hnil] at hc
    cases hc
  · rename_i quote cs hrest
    rw [hrest, List.head?_cons, Option.some.injEq] at hc
    subst hc
    have hscan := h.scan_eq hrest
    -- the text ends, or a control character comes, or the closing quote
    split
    · rename_i hs
      rw [hs] at hscan
      rw [string_of_unterminated hscan]
      exact agrees_fail h _
    · rename_i q rest hs
      obtain ⟨body, rfl, rfl, -⟩ := exists_scanned_of_controlCharacter hs
      rw [hs] at hscan
      have hpiece : c.rest = '"' :: body ++ rest := hrest
      rw [inBytes, h.offset_add hpiece] at hscan
      rw [string_of_controlCharacter hscan]
      exact h.failAt_eq hpiece _
    · rename_i body q rest hs
      obtain ⟨rfl, -⟩ := eq_append_quote_of_scan hs
      have hq := position_of_scan hs
      rw [hs] at hscan
      have hpiece : c.rest = '"' :: (body ++ ['"']) ++ rest := by
        rw [hrest, List.cons_append, List.append_assoc, List.singleton_append]
      rw [inBytes, h.offset_add hpiece] at hscan
      rw [string_of_scan hscan]
      cases hdecode : StringLiteral.decode 1 body with
      | error fault =>
        rw [h.literal_of_error hpiece hdecode, h.fail_eq]
        rfl
      | ok cs =>
        rw [h.literal_of_ok hpiece hdecode]
        refine ⟨⟨_, _⟩, rfl, ?_⟩
        have hpast := h.pastAll hpiece
        rw [Position.pastAll_cons, ← hq] at hpast
        exact hpast

theorem isDigit_eq {b : UInt8} {d : Char} (h : Opens b d) : isDigit b = d.isDigit := by
  have hdigit : isDigit b = true ↔ d.isDigit = true := by
    simp only [isDigit, Char.isDigit, Bool.and_eq_true, decide_eq_true_eq, UInt8.le_iff_toNat_le,
      UInt32.le_iff_toNat_le]
    show 48 ≤ b.toNat ∧ b.toNat ≤ 57 ↔ 48 ≤ d.toNat ∧ d.toNat ≤ 57
    rcases h with h | h <;> omega
  exact Bool.eq_iff_iff.mpr hdigit

theorem isNumeral_eq {b : UInt8} {d : Char} (h : Opens b d) : isNumeral b = isNumeralChar d := by
  have heq : ∀ a : Char, a.toNat < 128 → decide (b = a.toUInt8) = decide (d = a) := fun a ha =>
    decide_eq_decide.mpr (h.eq_iff ha)
  rw [isNumeral, isNumeralChar, isDigit_eq h, heq '-' (by decide), heq '+' (by decide), heq '.' (by decide),
    heq 'e' (by decide), heq 'E' (by decide)]

theorem toNat_lt_of_isNumeralChar {d : Char} (hd : isNumeralChar d = true) : d.toNat < 128 := by
  simp only [isNumeralChar, Bool.or_eq_true, decide_eq_true_eq] at hd
  rcases hd with ((((hd | rfl) | rfl) | rfl) | rfl) | rfl
  · simp only [Char.isDigit, Bool.and_eq_true, decide_eq_true_eq, UInt32.le_iff_toNat_le] at hd
    exact Nat.lt_of_le_of_lt hd.2 (by decide)
  all_goals decide

theorem StandsAt.numeralEnd_eq (h : StandsAt text s c) :
    numeralEnd text s.offset = s.offset + byteSize (c.rest.takeWhile isNumeralChar) := by
  obtain ⟨p, cs⟩ := c
  induction cs generalizing s p with
  | nil => rw [numeralEnd_of_none (h.byte?_eq_none rfl), List.takeWhile_nil, byteSize_nil, Nat.add_zero]
  | cons d cs ih =>
    obtain ⟨b, hb, hopens⟩ := h.exists_byte? rfl
    rw [numeralEnd_of_some hb, isNumeral_eq hopens, List.takeWhile_cons]
    by_cases hd : isNumeralChar d = true
    · have hsmall := toNat_lt_of_isNumeralChar hd
      have hnext := ih _ (h.past rfl hsmall)
      rw [if_pos hd, if_pos hd, byteSize_cons, utf8Size_eq_one hsmall, ← Nat.add_assoc]
      exact hnext
    · rw [if_neg hd, if_neg hd, byteSize_nil, Nat.add_zero]

theorem agrees_number {d : Char} {cs : List Char} (h : StandsAt text s c) (hrest : c.rest = d :: cs)
    (hd : isNumeralChar d = true) : Agrees text (number text s) (Json.number c) := by
  have hpiece : c.rest = d :: cs.takeWhile isNumeralChar ++ cs.dropWhile isNumeralChar := by
    rw [hrest, List.cons_append, List.takeWhile_append_dropWhile]
  have hend := h.numeralEnd_eq
  rw [hrest, List.takeWhile_cons, if_pos hd] at hend
  have hcut := h.cut_eq hpiece
  rw [← hend] at hcut
  unfold Json.number
  split
  · rename_i hnil
    cases hnil.symm.trans hrest
  · rename_i d' cs' hrest'
    obtain ⟨rfl, rfl⟩ := List.cons.inj (hrest'.symm.trans hrest)
    rw [number, hcut]
    dsimp only
    rw [String.toList_ofList]
    cases Number.ofChars? (d' :: cs'.takeWhile isNumeralChar) with
    | none => exact agrees_fail h _
    | some n =>
      refine ⟨⟨_, _⟩, rfl, ?_⟩
      have hpast := h.pastAll hpiece
      rw [State.move, ← hend] at hpast
      exact hpast

theorem agrees_word {w : List Char} (hw : 0 < w.length) (h : StandsAt text s c) :
    Agrees text (word text w s) (Json.word w c) := by
  rw [word, h.cut_end]
  dsimp only
  rw [String.toList_ofList]
  unfold Json.word
  by_cases hfits : w <+: c.rest
  · rw [if_pos hfits, dif_pos ⟨hfits, hw⟩]
    obtain ⟨rest, hrest⟩ := hfits
    have hdrop : c.rest.drop w.length = rest := by rw [← hrest, List.drop_left]
    refine ⟨⟨_, _⟩, rfl, ?_⟩
    dsimp only
    rw [hdrop]
    exact h.pastAll hrest.symm
  · rw [if_neg hfits, dif_neg fun h => hfits h.1]
    exact agrees_fail h _

end Leaves

/-! ### Containers -/

/-- Readers that agree wherever they are past white space at the same place. -/
def Agreeing {α : Type} (text : String) (entry : (s : State) → Step s α)
    (entry' : (c : Cursor) → Json.Step c α) : Prop :=
  ∀ {s : State} {c : Cursor}, StandsAt text (skip text s) c.skip → Agrees text (entry s) (entry' c)

section Containers

variable {α : Type} {close : Char} {problem : Problem} {entry : (s : State) → Step s α}
  {entry' : (c : Cursor) → Json.Step c α} {s : State} {c : Cursor}

theorem agrees_delimiter (hclose : close.toNat < 128) (h : StandsAt text s c) :
    Agrees text (delimiter text close problem s) (Json.delimiter close problem c) := by
  have hskip := h.skip
  unfold Json.delimiter
  split
  · rename_i hnil
    have hnone := hskip.byte?_eq_none hnil
    unfold delimiter
    split
    · exact agrees_fail hskip _
    · rename_i hb
      cases hb.symm.trans hnone
  · rename_i d cs hrest
    obtain ⟨b, hb, hopens⟩ := hskip.exists_byte? hrest
    unfold delimiter
    split
    · rename_i hnone
      cases hnone.symm.trans hb
    · rename_i b' hb'
      obtain rfl := Option.some.inj (hb'.symm.trans hb)
      dsimp only
      simp only [hopens.eq_iff (show ','.toNat < 128 by decide), hopens.eq_iff hclose]
      by_cases hcomma : d = ','
      · rw [if_pos hcomma, if_pos hcomma]
        exact ⟨_, rfl, hskip.past hrest (by rw [hcomma]; decide)⟩
      rw [if_neg hcomma, if_neg hcomma]
      by_cases hbracket : d = close
      · rw [if_pos hbracket, if_pos hbracket]
        exact ⟨_, rfl, hskip.past hrest (by rwa [hbracket])⟩
      · rw [if_neg hbracket, if_neg hbracket]
        exact agrees_fail hskip _

/-- **The loops over the entries agree**, since the entries do, and the delimiters. -/
theorem agreeing_entries (hentry : Agreeing text entry entry') (hclose : close.toNat < 128) :
    Agreeing text (entries text close problem entry) (Json.entries close problem entry') := by
  intro s c h
  fun_induction Json.entries close problem entry' c generalizing s with
  | case1 c e he =>
    rw [entries, (hentry h).of_error he]
    rfl
  | case2 c a c₁ h₁ he e hd =>
    obtain ⟨t, ht, hstands⟩ := (hentry h).of_ok he
    rw [entries, ht]
    dsimp only
    rw [(agrees_delimiter hclose hstands).of_error hd]
    rfl
  | case3 c a c₁ h₁ he c₂ h₂ hd =>
    obtain ⟨t, ht, hstands⟩ := (hentry h).of_ok he
    obtain ⟨u, hu, hstands⟩ := (agrees_delimiter hclose hstands).of_ok hd
    rw [entries, ht]
    dsimp only
    rw [hu]
    exact ⟨⟨u.1, _⟩, rfl, hstands⟩
  | case4 c a c₁ h₁ he c₂ h₂ hd e hentries ih =>
    obtain ⟨t, ht, hstands⟩ := (hentry h).of_ok he
    obtain ⟨u, hu, hstands⟩ := (agrees_delimiter hclose hstands).of_ok hd
    rw [entries, ht]
    dsimp only
    rw [hu]
    dsimp only
    rw [(ih hstands.skip).of_error hentries]
    rfl
  | case5 c a c₁ h₁ he c₂ h₂ hd as c₃ h₃ hentries ih =>
    obtain ⟨t, ht, hstands⟩ := (hentry h).of_ok he
    obtain ⟨u, hu, hstands⟩ := (agrees_delimiter hclose hstands).of_ok hd
    obtain ⟨v, hv, hstands⟩ := (ih hstands.skip).of_ok hentries
    rw [entries, ht]
    dsimp only
    rw [hu]
    dsimp only
    rw [hv]
    exact ⟨⟨v.1, _⟩, rfl, hstands⟩

theorem agrees_afterBracket (hentry : Agreeing text entry entry') (hclose : close.toNat < 128)
    (h : StandsAt text s c) :
    Agrees text (afterBracket text close problem entry s) (Json.afterBracket close problem entry' c) := by
  have hskip := h.skip
  have hloop : StandsAt text (skip text (skip text s)) c.skip := by rwa [skip_skip]
  have hiff := hskip.byte?_eq_iff hclose
  unfold Json.afterBracket
  split
  · rename_i hnil
    rw [hnil] at hiff
    refine agrees_later _ ?_
    rw [if_neg (fun hb => nomatch hiff.mp hb)]
    exact agreeing_entries hentry hclose hloop
  · rename_i d cs hrest
    rw [hrest, List.head?_cons, Option.some.injEq] at hiff
    refine agrees_later _ ?_
    by_cases hbracket : d = close
    · rw [if_pos (hiff.mpr hbracket), if_pos hbracket]
      exact ⟨⟨_, _⟩, rfl, hskip.past hrest (by rwa [hbracket])⟩
    · rw [if_neg (fun hb => hbracket (hiff.mp hb)), if_neg hbracket]
      exact agreeing_entries hentry hclose hloop

theorem agrees_container (hentry : Agreeing text entry entry') (hclose : close.toNat < 128) {left : Char}
    (hleft : left.toNat < 128) (h : StandsAt text s c) (hc : c.rest.head? = some left) :
    Agrees text (container text close problem entry s) (Json.container close problem entry' c) := by
  refine agrees_later _ ?_
  unfold Json.container
  split
  · rename_i hnil
    rw [hnil] at hc
    cases hc
  · rename_i bracket cs hrest
    rw [hrest, List.head?_cons, Option.some.injEq] at hc
    have hagrees : Agrees text (afterBracket text close problem entry (s.move 1))
        (Json.afterBracket close problem entry' ⟨c.position.past bracket, cs⟩) :=
      agrees_afterBracket hentry hclose (h.past hrest (by rwa [hc]))
    split
    · rename_i e hafter
      exact hagrees.of_error hafter
    · rename_i as d further hafter
      exact hagrees.of_ok hafter

end Containers

/-! ### Members -/

theorem agreeing_key : Agreeing text (key text) Json.key := by
  intro s c h
  refine agrees_later _ ?_
  unfold Json.key
  have hiff := h.byte?_eq_iff (show '"'.toNat < 128 by decide)
  by_cases hquote : c.skip.rest.head? = some '"'
  · rw [if_pos (hiff.mpr hquote), if_pos hquote]
    have hstring := agrees_string h hquote
    cases hs : Json.string c.skip with
    | error e =>
      rw [hstring.of_error hs]
      rfl
    | ok p =>
      obtain ⟨k, c₁, h₁⟩ := p
      obtain ⟨t, ht, hstands⟩ := hstring.of_ok hs
      have hskip := hstands.skip
      have hcolon := hskip.byte?_eq_iff (show ':'.toNat < 128 by decide)
      rw [ht]
      dsimp only
      by_cases hd : c₁.skip.rest.head? = some ':'
      · rw [if_pos (hcolon.mpr hd)]
        split
        · rename_i hnil
          rw [hnil] at hd
          cases hd
        · rename_i d cs hrest
          rw [hrest, List.head?_cons, Option.some.injEq] at hd
          rw [if_pos hd]
          exact ⟨⟨_, _⟩, rfl, hskip.past hrest (by rw [hd]; decide)⟩
      · rw [if_neg (fun hb => hd (hcolon.mp hb))]
        split
        · exact agrees_fail hskip _
        · rename_i d cs hrest
          rw [hrest, List.head?_cons, Option.some.injEq] at hd
          rw [if_neg hd]
          exact agrees_fail hskip _
  · rw [if_neg (fun h => hquote (hiff.mp h)), if_neg hquote]
    exact agrees_fail h _

theorem agreeing_member {element : (s : State) → Step s Written} {element' : (c : Cursor) → Json.Step c Written}
    (helement : Agreeing text element element') : Agreeing text (member text element) (Json.member element') := by
  intro s c h
  unfold Json.member
  cases hkey : Json.key c with
  | error e =>
    rw [member, (agreeing_key h).of_error hkey]
    rfl
  | ok p =>
    obtain ⟨k, c₁, h₁⟩ := p
    obtain ⟨t, ht, hstands⟩ := (agreeing_key h).of_ok hkey
    rw [member, ht]
    dsimp only
    cases he : element' c₁ with
    | error e =>
      rw [(helement hstands.skip).of_error he]
      rfl
    | ok p =>
      obtain ⟨u, hu, hstands⟩ := (helement hstands.skip).of_ok he
      rw [hu]
      exact ⟨⟨_, _⟩, rfl, hstands⟩

/-! ### Values -/

section Values

variable {s : State} {c : Cursor}

theorem agrees_spanned {α : Type} {make : Span → α → Written} {read : Step s α} {read' : Json.Step c.skip α}
    (h : Agrees text read read') :
    Agrees text (spanned text c.skip.position make read) (Json.spanned c make read') := by
  cases read' with
  | error e =>
    rw [h.of_error rfl]
    rfl
  | ok p =>
    obtain ⟨a, d, further⟩ := p
    obtain ⟨t, ht, hstands⟩ := h.of_ok rfl
    obtain ⟨u, hle, hhere, hstands⟩ := hstands.here_eq
    rw [ht, spanned, hhere]
    exact ⟨⟨u, _⟩, rfl, hstands⟩

/-- **The readers of values agree**, at every level of nesting. -/
theorem agreeing_value (levels : Nat) : Agreeing text (value text levels) (Json.value levels) := by
  induction levels with
  | zero =>
    intro s c h
    exact agrees_fail h _
  | succ levels ih =>
    intro s c h
    obtain ⟨t, hle, hhere, hstands⟩ := h.here_eq
    rw [value, hhere]
    refine agrees_later _ ?_
    cases hskip : c.skip.rest with
    | nil =>
      rw [Json.value, hskip, hstands.byte?_eq_none hskip]
      exact agrees_fail hstands _
    | cons d cs =>
      obtain ⟨b, hb, hopens⟩ := hstands.exists_byte? hskip
      have heq : ∀ a : Char, a.toNat < 128 → (b = a.toUInt8 ↔ d = a) := fun a ha => hopens.eq_iff ha
      have hhead : c.skip.rest.head? = some d := by rw [hskip, List.head?_cons]
      rw [value_of_skip hskip, hb]
      dsimp only
      simp only [heq '\x7b' (by decide), heq '[' (by decide), heq '"' (by decide), heq 't' (by decide),
        heq 'f' (by decide), heq 'n' (by decide), heq '-' (by decide), isDigit_eq hopens]
      -- one case for each reader that the first character may choose
      by_cases hfirst : d = '\x7b'
      · rw [if_pos hfirst, if_pos hfirst]
        rw [hfirst] at hhead
        exact agrees_spanned
          (agrees_container (agreeing_member ih) (by decide) (by decide : '\x7b'.toNat < 128) hstands hhead)
      rw [if_neg hfirst, if_neg hfirst]
      by_cases hfirst : d = '['
      · rw [if_pos hfirst, if_pos hfirst]
        rw [hfirst] at hhead
        exact agrees_spanned (agrees_container ih (by decide) (by decide : '['.toNat < 128) hstands hhead)
      rw [if_neg hfirst, if_neg hfirst]
      by_cases hfirst : d = '"'
      · rw [if_pos hfirst, if_pos hfirst]
        rw [hfirst] at hhead
        exact agrees_spanned (agrees_string hstands hhead)
      rw [if_neg hfirst, if_neg hfirst]
      by_cases hfirst : d = 't'
      · rw [if_pos hfirst, if_pos hfirst]
        exact agrees_spanned (agrees_word (by decide) hstands)
      rw [if_neg hfirst, if_neg hfirst]
      by_cases hfirst : d = 'f'
      · rw [if_pos hfirst, if_pos hfirst]
        exact agrees_spanned (agrees_word (by decide) hstands)
      rw [if_neg hfirst, if_neg hfirst]
      by_cases hfirst : d = 'n'
      · rw [if_pos hfirst, if_pos hfirst]
        exact agrees_spanned (agrees_word (by decide) hstands)
      rw [if_neg hfirst, if_neg hfirst]
      by_cases hfirst : (d = '-' || d.isDigit) = true
      · rw [if_pos hfirst, if_pos hfirst]
        have hnumeral : isNumeralChar d = true := by
          rcases Bool.or_eq_true_iff.mp hfirst with hminus | hdigit
          · rw [of_decide_eq_true hminus]
            decide
          · exact isNumeralChar_of_isDigit hdigit
        exact agrees_spanned (agrees_number hstands hskip hnumeral)
      · rw [if_neg hfirst, if_neg hfirst, hstands.cut_end]
        dsimp only
        rw [String.toList_ofList, hskip, List.head?_cons]
        exact agrees_fail hstands _

end Values

/-! ### Texts -/

theorem standsAt_start (text : String) : StandsAt text (start text) (Cursor.ofText text.toList).skipMark := by
  cases htext : text.toList with
  | nil =>
    rw [start, htext]
    exact ⟨[], [], htext, rfl, rfl, rfl, .inr ⟨[], [], rfl, rfl⟩⟩
  | cons m cs =>
    rw [start, htext, Cursor.skipMark]
    by_cases hm : m = '\ufeff'
    · subst hm
      exact ⟨['\ufeff'], [], htext, rfl, rfl, rfl, .inl (show 0 < Char.utf8Size '\ufeff' by decide)⟩
    · have hhead : (m :: cs).head? ≠ some '\ufeff' := fun hmark => hm (Option.some.inj hmark)
      dsimp only [Cursor.ofText]
      rw [if_neg hhead, if_neg hm]
      exact ⟨[], [], htext, rfl, rfl, rfl, .inr ⟨[], [], rfl, rfl⟩⟩

theorem readWritten_eq (text : String) :
    readWritten text = (Json.readWritten text.toList).mapError Stop.fault := by
  have hvalue : Agrees text (value text (maxDepth + 1) (start text))
      (Json.value (maxDepth + 1) (Cursor.ofText text.toList).skipMark) :=
    agreeing_value _ (standsAt_start text).skip
  unfold readWritten Json.readWritten
  cases hread : Json.value (maxDepth + 1) (Cursor.ofText text.toList).skipMark with
  | error e =>
    rw [hvalue.of_error hread]
    rfl
  | ok p =>
    obtain ⟨w, d, further⟩ := p
    obtain ⟨t, ht, hstands⟩ := hvalue.of_ok hread
    rw [ht]
    dsimp only
    cases hrest : d.skip.rest with
    | nil =>
      rw [hstands.skip.byte?_eq_none hrest]
      rfl
    | cons e cs =>
      obtain ⟨b, hb, -⟩ := hstands.skip.exists_byte? hrest
      rw [hb]
      exact hstands.skip.fail_eq _

/-- Reading the bytes of a text gives what reading its characters gives. -/
theorem read_eq (text : String) : read text = (Json.read text).mapError Stop.fault := by
  rw [read, readWritten_eq, Json.read]
  cases Json.readWritten text.toList <;> rfl

/-- **No text is cut where it cannot be cut.**  Of any text, the bytes are read with the outcome that the characters
have, so the reader does not stop at a cut, nor at a difference of offsets, and no error lies behind the end. -/
theorem read_never_badCut (text : String) :
    read text = (Json.read text).mapError Stop.fault ∧
      (∀ first last, read text ≠ .error (.badCut first last)) ∧
      (∀ first last, read text ≠ .error (.backwards first last)) ∧
      ∀ e, read text = .error (.fault e) → e.position.offset ≤ text.utf8ByteSize := by
  have hread := read_eq text
  cases hchars : Json.read text with
  | ok tree =>
    rw [hchars] at hread
    rw [hread]
    exact ⟨rfl, fun _ _ => nofun, fun _ _ => nofun, fun _ => nofun⟩
  | error e =>
    rw [hchars] at hread
    rw [hread]
    refine ⟨rfl, fun _ _ => nofun, fun _ _ => nofun, ?_⟩
    intro e' he
    cases he
    obtain ⟨before, passed, after, hfails⟩ := exists_failsAt_of_read hchars
    exact hfails.offset_le

end ApiLint.Json.Bytewise
