import ApiLint.Proofs.Reference.Pointers
import ApiLint.Proofs.Reference.Texts
import ApiLint.Proofs.Text.Bytes

/-!
# Pointers of paths

The pointer of a path is a reference to the node from within its own document.  Tildes and slashes of a name are written
as codes, and a reader of references takes them back (`unescapeToken_escapeToken`).  A percent sign is written as it is,
though a reader takes it for the start of a code.

No name with a percent sign survives this, whatever stands behind the percent sign: a code makes three characters one
byte, and nothing that is read makes up for the two bytes that are lost (`unescapedSize_add_le`).  So the pointer of a
path leads back to the path if and only if no name on the path has a percent sign (`leadsBack_iff`).
-/

namespace ApiLint

namespace Reference

/-! ### Tilde codes -/

theorem unescapeToken_cons_of_ne {c : Char} (hc : c ≠ '~') (cs : List Char) :
    unescapeToken (c :: cs) = c :: unescapeToken cs := by
  cases cs with
  | nil => rfl
  | cons d cs => rw [unescapeToken, if_neg fun h => hc h.1, if_neg fun h => hc h.1]

/-- **The codes that a pointer is written with are taken back.** -/
theorem unescapeToken_escapeToken (cs : List Char) : unescapeToken (escapeToken cs) = cs := by
  induction cs with
  | nil => rfl
  | cons c cs ih =>
    rw [escapeToken]
    split
    · next h => rw [unescapeToken, if_neg (by decide), if_pos ⟨rfl, rfl⟩, ih, h]
    · next htilde =>
      split
      · next h => rw [unescapeToken, if_pos ⟨rfl, rfl⟩, ih, h]
      · rw [unescapeToken_cons_of_ne htilde, ih]

theorem unescapeToken_of_not_mem {cs : List Char} (h : '~' ∉ cs) : unescapeToken cs = cs := by
  induction cs with
  | nil => rfl
  | cons c cs ih =>
    rw [List.mem_cons, not_or] at h
    rw [unescapeToken_cons_of_ne (Ne.symm h.1), ih h.2]

theorem mem_of_mem_escapeToken {c : Char} {cs : List Char} (h : c ∈ escapeToken cs) :
    c ∈ cs ∧ c ≠ '/' ∨ c = '~' ∨ c = '0' ∨ c = '1' := by
  induction cs with
  | nil => cases h
  | cons d cs ih =>
    have hrest (h : c ∈ escapeToken cs) : c ∈ d :: cs ∧ c ≠ '/' ∨ c = '~' ∨ c = '0' ∨ c = '1' :=
      (ih h).imp_left fun hc => ⟨List.mem_cons_of_mem _ hc.1, hc.2⟩
    rw [escapeToken] at h
    split at h
    · rcases List.mem_cons.mp h with rfl | h
      · exact .inr (.inl rfl)
      · rcases List.mem_cons.mp h with rfl | h
        · exact .inr (.inr (.inl rfl))
        · exact hrest h
    · split at h
      · rcases List.mem_cons.mp h with rfl | h
        · exact .inr (.inl rfl)
        · rcases List.mem_cons.mp h with rfl | h
          · exact .inr (.inr (.inr rfl))
          · exact hrest h
      · next hslash =>
        rcases List.mem_cons.mp h with rfl | h
        · exact .inl ⟨List.mem_cons_self .., hslash⟩
        · exact hrest h

/-! ### Sizes -/

/-- The number of bytes that are left when the tilde codes among them are replaced. -/
def unescapedSize : List UInt8 → Nat
  | a :: b :: bytes =>
    if a = 0x7e ∧ (b = 0x30 ∨ b = 0x31) then unescapedSize bytes + 1 else unescapedSize (b :: bytes) + 1
  | bytes => bytes.length

/-- A further byte in front counts once, or not at all if it makes a code. -/
theorem unescapedSize_cons (b : UInt8) (bytes : List UInt8) :
    unescapedSize bytes ≤ unescapedSize (b :: bytes) ∧ unescapedSize (b :: bytes) ≤ unescapedSize bytes + 1 := by
  induction bytes generalizing b with
  | nil => exact ⟨Nat.zero_le _, Nat.le_refl _⟩
  | cons c bytes ih =>
    have hc := ih c
    rw [unescapedSize]
    split
    · omega
    · omega

theorem unescapedSize_append_of_ne {xs : List UInt8} (h : ∀ x ∈ xs, x ≠ 0x7e) (bytes : List UInt8) :
    unescapedSize (xs ++ bytes) = xs.length + unescapedSize bytes := by
  induction xs with
  | nil => exact (Nat.zero_add _).symm
  | cons x xs ih =>
    rw [List.forall_mem_cons] at h
    have hx : unescapedSize (x :: (xs ++ bytes)) = unescapedSize (xs ++ bytes) + 1 := by
      cases xs ++ bytes with
      | nil => rfl
      | cons b bytes => rw [unescapedSize, if_neg fun hcode => h.1 hcode.1]
    rw [List.cons_append, hx, ih h.2, List.length_cons]
    omega

theorem unescapedSize_append_char {c : Char} (hc : c ≠ '~') (bytes : List UInt8) :
    unescapedSize (String.utf8EncodeChar c ++ bytes) = c.utf8Size + unescapedSize bytes := by
  rw [← String.length_utf8EncodeChar]
  refine unescapedSize_append_of_ne ?_ bytes
  rintro x hx rfl
  exact not_mem_utf8EncodeChar (d := '~') (by decide) hc hx

/-- **The size of a text without its tilde codes, seen from its bytes.** -/
theorem unescapedSize_flatMap (cs : List Char) :
    unescapedSize (cs.flatMap String.utf8EncodeChar) = ((unescapeToken cs).flatMap String.utf8EncodeChar).length := by
  fun_induction unescapeToken cs with
  | case1 => rfl
  | case2 c =>
    by_cases hc : c = '~'
    · subst hc
      rfl
    · rw [List.flatMap_singleton, ← List.append_nil (String.utf8EncodeChar c), unescapedSize_append_char hc,
        List.append_nil, String.length_utf8EncodeChar]
      rfl
  | case3 c d cs h ih =>
    obtain ⟨rfl, rfl⟩ := h
    show unescapedSize (0x7e :: 0x31 :: cs.flatMap String.utf8EncodeChar) = _
    rw [unescapedSize, if_pos ⟨rfl, .inr rfl⟩, ih]
    rfl
  | case4 c d cs h1 h0 ih =>
    obtain ⟨rfl, rfl⟩ := h0
    show unescapedSize (0x7e :: 0x30 :: cs.flatMap String.utf8EncodeChar) = _
    rw [unescapedSize, if_pos ⟨rfl, .inl rfl⟩, ih]
    rfl
  | case5 c d cs h1 h0 ih =>
    by_cases hc : c = '~'
    · subst hc
      obtain ⟨b, bytes, hbytes, hb⟩ : ∃ b bytes, (d :: cs).flatMap String.utf8EncodeChar = b :: bytes ∧
          b ∈ String.utf8EncodeChar d := by
        rw [List.flatMap_cons]
        cases hd : String.utf8EncodeChar d with
        | nil => exact absurd hd String.utf8EncodeChar_ne_nil
        | cons b bytes => exact ⟨b, _, List.cons_append, List.mem_cons_self ..⟩
      have hcode : ¬ ((0x7e : UInt8) = 0x7e ∧ (b = 0x30 ∨ b = 0x31)) := by
        rintro ⟨-, rfl | rfl⟩
        · exact not_mem_utf8EncodeChar (d := '0') (by decide) (fun hd => h0 ⟨rfl, hd⟩) hb
        · exact not_mem_utf8EncodeChar (d := '1') (by decide) (fun hd => h1 ⟨rfl, hd⟩) hb
      show unescapedSize (0x7e :: (d :: cs).flatMap String.utf8EncodeChar) = _
      rw [hbytes, unescapedSize, if_neg hcode, ← hbytes, ih]
      rfl
    · rw [List.flatMap_cons, unescapedSize_append_char hc, ih, List.flatMap_cons, List.length_append,
        String.length_utf8EncodeChar]

theorem exists_of_percentText_cons {places : Char → Char → Nat → Prop} {c : Char} {cs : List Char} {bytes : List UInt8}
    (hc : c ≠ '%') (h : PercentText places (c :: cs) bytes) :
    ∃ below, PercentText places cs below ∧ bytes = String.utf8EncodeChar c ++ below := by
  cases h with
  | code => exact absurd rfl hc
  | char _ hbelow => exact ⟨_, hbelow, rfl⟩

theorem exists_of_escapeToken_eq_cons {c : Char} {cs ds : List Char} (hc : c ≠ '~') (h : escapeToken cs = c :: ds) :
    ∃ es, cs = c :: es ∧ ds = escapeToken es := by
  cases cs with
  | nil => cases h
  | cons d cs =>
    rw [escapeToken] at h
    split at h
    · exact absurd (List.cons.inj h).1.symm hc
    · split at h
      · exact absurd (List.cons.inj h).1.symm hc
      · obtain ⟨rfl, rfl⟩ := List.cons.inj h
        exact ⟨cs, rfl, rfl⟩

theorem exists_of_percentText_tilde {places : Char → Char → Nat → Prop} {digit : Char} {cs : List Char}
    {bytes : List UInt8} (hdigit : digit = '0' ∨ digit = '1') (h : PercentText places ('~' :: digit :: cs) bytes) :
    ∃ below, PercentText places cs below ∧ unescapedSize bytes = unescapedSize below + 1 := by
  obtain ⟨_, hrest, rfl⟩ := exists_of_percentText_cons (by decide) h
  obtain ⟨below, hbelow, rfl⟩ := exists_of_percentText_cons (by rcases hdigit with rfl | rfl <;> decide) hrest
  refine ⟨below, hbelow, ?_⟩
  rcases hdigit with rfl | rfl
  · show unescapedSize (0x7e :: 0x30 :: below) = _
    rw [unescapedSize, if_pos ⟨rfl, .inl rfl⟩]
  · show unescapedSize (0x7e :: 0x31 :: below) = _
    rw [unescapedSize, if_pos ⟨rfl, .inr rfl⟩]

/-- Behind a percent sign of a name stand two characters that are written as they are. -/
theorem exists_of_percentText_percent {cs : List Char} {bytes : List UInt8}
    (h : PercentText SignedPlaces ('%' :: escapeToken cs) bytes) :
    ∃ a b n ds below, cs = a :: b :: ds ∧ (a ≠ '%' ∧ b ≠ '%') ∧ PercentText SignedPlaces (escapeToken ds) below ∧
      bytes = n :: below := by
  generalize heq : escapeToken cs = es at h
  cases h with
  | char hc => exact absurd rfl hc
  | @code a b n _ below hn hbelow =>
    obtain ⟨ha, hb⟩ := hn.ne (c := '~') rfl (by decide)
    obtain ⟨cs, rfl, hcs⟩ := exists_of_escapeToken_eq_cons ha heq
    obtain ⟨ds, rfl, rfl⟩ := exists_of_escapeToken_eq_cons hb hcs.symm
    exact ⟨a, b, _, ds, below, rfl, hn.ne (c := '%') rfl (by decide), hbelow, rfl⟩

/-- **Codes make a name smaller.**  When the pointer of a name is read, two bytes are lost with each percent sign. -/
theorem unescapedSize_add_le {cs : List Char} {bytes : List UInt8}
    (h : PercentText SignedPlaces (escapeToken cs) bytes) :
    unescapedSize bytes + 2 * cs.count '%' ≤ (cs.flatMap String.utf8EncodeChar).length := by
  induction hn : cs.length using Nat.strong_induction_on generalizing cs bytes with
  | _ n ih =>
    cases cs with
    | nil =>
      cases h
      exact Nat.le_refl _
    | cons c cs =>
      rw [List.length_cons] at hn
      rw [List.flatMap_cons, List.length_append, String.length_utf8EncodeChar]
      have hpos := c.utf8Size_pos
      rw [escapeToken] at h
      split at h
      · next hc =>
        obtain ⟨below, hbelow, hsize⟩ := exists_of_percentText_tilde (.inl rfl) h
        have hrest := ih cs.length (by omega) hbelow rfl
        rw [List.count_cons_of_ne (hc ▸ by decide), hsize]
        omega
      · next htilde =>
        split at h
        · next hc =>
          obtain ⟨below, hbelow, hsize⟩ := exists_of_percentText_tilde (.inr rfl) h
          have hrest := ih cs.length (by omega) hbelow rfl
          rw [List.count_cons_of_ne (hc ▸ by decide), hsize]
          omega
        · by_cases hc : c = '%'
          · subst hc
            obtain ⟨a, b, byte, ds, below, rfl, ⟨ha, hb⟩, hbelow, rfl⟩ := exists_of_percentText_percent h
            rw [List.length_cons, List.length_cons] at hn
            have hrest := ih ds.length (by omega) hbelow rfl
            have hcode := (unescapedSize_cons byte below).2
            have hapos := a.utf8Size_pos
            have hbpos := b.utf8Size_pos
            rw [List.count_cons_self, List.count_cons_of_ne ha, List.count_cons_of_ne hb]
            rw [List.flatMap_cons, List.flatMap_cons, List.length_append, List.length_append,
              String.length_utf8EncodeChar, String.length_utf8EncodeChar]
            omega
          · obtain ⟨below, hbelow, rfl⟩ := exists_of_percentText_cons hc h
            have hrest := ih cs.length (by omega) hbelow rfl
            rw [List.count_cons_of_ne hc, unescapedSize_append_char htilde]
            omega

/-- **A name comes back from its pointer if and only if it has no percent sign.** -/
theorem tokenOf_escapeToken_iff {k : String} : TokenOf SignedPlaces (escapeToken k.toList) k ↔ '%' ∉ k.toList := by
  constructor
  · rintro ⟨chars, hchars, hk⟩
    have hsize := unescapedSize_add_le hchars
    rw [unescapedSize_flatMap, unescapeToken_eq, ← hk] at hsize
    exact List.count_eq_zero.mp (by omega)
  · intro hpercent
    refine ⟨escapeToken k.toList, percentText_of_not_mem fun hmem => ?_, ?_⟩
    · rcases mem_of_mem_escapeToken hmem with h | h | h | h
      · exact hpercent h.1
      · exact absurd h (by decide)
      · exact absurd h (by decide)
      · exact absurd h (by decide)
    · rw [← unescapeToken_eq, unescapeToken_escapeToken]

/-! ### Pointers -/

theorem not_mem_toDigits {c : Char} (hc : c.isDigit = false) (i : Nat) : c ∉ Nat.toDigits 10 i :=
  fun h => Bool.false_ne_true (hc.symm.trans ((digits_toDigits i).2 c h))

theorem not_mem_token (s : Segment) : '/' ∉ s.token := by
  cases s with
  | index i => exact not_mem_toDigits (by decide) i
  | key k =>
    intro h
    rcases mem_of_mem_escapeToken h with h | h | h | h
    · exact h.2 rfl
    · exact absurd h (by decide)
    · exact absurd h (by decide)
    · exact absurd h (by decide)

theorem tokenOf_toDigits (i : Nat) : TokenOf SignedPlaces (Nat.toDigits 10 i) (Segment.index i).text := by
  refine ⟨Nat.toDigits 10 i, percentText_of_not_mem (not_mem_toDigits (by decide) i), ?_⟩
  rw [toList_text_index, ← unescapeToken_eq, unescapeToken_of_not_mem (not_mem_toDigits (by decide) i)]

/-- What stands for a segment in a pointer is read as a spelling of it, unless it is a name with a percent sign. -/
theorem exists_tokenOf_spells_iff (s : Segment) :
    (∃ token, TokenOf SignedPlaces s.token token ∧ Spells token s) ↔ ∀ k, s = .key k → '%' ∉ k.toList := by
  cases s with
  | index i => exact iff_of_true ⟨_, tokenOf_toDigits i, spells_text (.index i)⟩ nofun
  | key k =>
    constructor
    · rintro ⟨_, htoken, rfl⟩ _ heq
      cases heq
      exact tokenOf_escapeToken_iff.mp htoken
    · exact fun h => ⟨k, tokenOf_escapeToken_iff.mpr (h k rfl), rfl⟩

theorem toList_pointer (p : Path) : p.pointer.toList = '#' :: p.flatMap fun s => '/' :: s.token := by
  rw [Path.pointer, String.toList_ofList]

theorem splitOn_tokens (s : Segment) (p : Path) :
    (s.token ++ p.flatMap fun s => '/' :: s.token).splitOn '/' = s.token :: p.map Segment.token := by
  induction p generalizing s with
  | nil =>
    rw [List.flatMap_nil, List.append_nil, List.splitOn_eq_singleton (not_mem_token s)]
    rfl
  | cons next p ih =>
    rw [List.flatMap_cons, List.cons_append, List.splitOn_append_cons_self_of_not_mem (not_mem_token s), ih next]
    rfl

/-- The pieces of the pointer of a path are those of its segments. -/
theorem pieces_pointer (p : Path) : pieces p.pointer.toList = p.map Segment.token := by
  rw [pieces, fragment, toList_pointer]
  cases p with
  | nil => rfl
  | cons s p => exact splitOn_tokens s p

/-- The pointer of a path is a reference to the same document, with one token for each segment. -/
theorem ofText?_pointer_eq_some_iff {p : Path} {r : Reference} :
    ofText? p.pointer = some r ↔ r.file = "" ∧ List.Forall₂ (TokenOf SignedPlaces) (p.map Segment.token) r.tokens := by
  have hfile : r.file.toList = fileText p.pointer.toList ↔ r.file = "" := by
    rw [toList_pointer]
    exact String.toList_eq_nil_iff
  rw [ofText?_eq_some_iff, hfile, pieces_pointer]
  refine ⟨fun h => h.2.2, fun h => ⟨?_, ?_, h⟩⟩
  · rw [toList_pointer]
    exact List.cons_ne_nil _ _
  · rw [toList_pointer]
    cases p with
    | nil => exact .inl rfl
    | cons s p => exact .inr rfl

end Reference

namespace Value

open Reference

variable {v : Value} {p : Path}

/-- The pointer of the path, written in a document of the value, leads back to the path. -/
structure LeadsBack (v : Value) (p : Path) : Prop where
  /-- Its tokens are walked along the path. -/
  walked : ∃ tokens, ofText? p.pointer = some ⟨"", tokens⟩ ∧ v.follow? tokens = some p
  /-- As a reference of a document, it designates the node at the path, and no other document is asked for. -/
  located : ∀ files (g : Graph) (d : Document) origin, d.value = v →
    g.locate files d origin p.pointer = (.ok ⟨d.id, p⟩, g)

theorem locate_of_walked {tokens : List String} {d : Document} (files : FileSystem) (g : Graph) (origin : Path)
    (hread : ofText? p.pointer = some ⟨"", tokens⟩) (hwalk : d.value.follow? tokens = some p) :
    g.locate files d origin p.pointer = (.ok ⟨d.id, p⟩, g) := by
  have htarget : g.target? d p.pointer = none := by
    rw [Graph.target?, hread]
    rfl
  rw [Graph.locate_eq, htarget]
  dsimp only
  rw [Graph.designated, hread]
  dsimp only
  rw [Graph.pointed, hwalk]

/-- **The pointer of a path to a node leads back to the path if and only if no name on the path has a percent sign.** -/
theorem leadsBack_iff (h : (v.get? p).isSome) : v.LeadsBack p ↔ ∀ k, Segment.key k ∈ p → '%' ∉ k.toList := by
  constructor
  · rintro ⟨⟨tokens, hread, hwalk⟩, -⟩ k hk
    have htokens := List.forall₂_map_left_iff.mp (ofText?_pointer_eq_some_iff.mp hread).2
    have hspells := (follow?_eq_some_iff.mp hwalk).2
    have hboth := exists_forall₂_iff.mp ⟨tokens, List.Forall₂.mp (fun _ _ => And.intro) htokens hspells.flip⟩
    exact (exists_tokenOf_spells_iff (.key k)).mp (hboth (.key k) hk) k rfl
  · intro hpercent
    obtain ⟨tokens, htokens⟩ := exists_forall₂_iff.mpr fun s hs =>
      (exists_tokenOf_spells_iff s).mpr fun k hk => hpercent k (hk ▸ hs)
    have hread : ofText? p.pointer = some ⟨"", tokens⟩ :=
      ofText?_pointer_eq_some_iff.mpr ⟨rfl, List.forall₂_map_left_iff.mpr (htokens.imp fun _ _ => And.left)⟩
    have hspells : List.Forall₂ Spells tokens p := (List.Forall₂.imp (fun _ _ => And.right) htokens).flip
    have hwalk := follow?_eq_some_iff.mpr ⟨h, hspells⟩
    refine ⟨⟨tokens, hread, hwalk⟩, ?_⟩
    rintro files g d origin rfl
    exact locate_of_walked files g origin hread hwalk

/-- A name may have every other sign of a reference, the empty name is one, and digits may be a name. -/
theorem leadsBack_of_escaped_names :
    let v := object [("a/~1#", array [null, object [("", object [("01", null)])]])]
    let p : Path := [.key "a/~1#", .index 1, .key "", .key "01"]
    p.pointer = "#/a~1~01#/1//01" ∧ v.LeadsBack p := by
  refine ⟨by decide +kernel, (leadsBack_iff (by decide +kernel)).mpr fun k hk => ?_⟩
  simp only [List.mem_cons, Segment.key.injEq, reduceCtorEq, List.not_mem_nil, false_or, or_false] at hk
  rcases hk with rfl | rfl | rfl
  · decide
  · decide
  · decide

/-- The pointer of a name with a percent sign is malformed, or it leads to another node. -/
theorem not_leadsBack_with_percent :
    let v := object [("100%", null), ("%41", null), ("A", null)]
    (v.get? [.key "100%"]).isSome ∧ ¬ v.LeadsBack [.key "100%"] ∧
      (v.get? [.key "%41"]).isSome ∧ ¬ v.LeadsBack [.key "%41"] := by
  have hmalformed : ofText? (Path.pointer [.key "100%"]) = none := by decide +kernel
  have hother : ofText? (Path.pointer [.key "%41"]) = some ⟨"", ["A"]⟩ := by decide +kernel
  refine ⟨by decide +kernel, fun h => ?_, by decide +kernel, fun h => ?_⟩
  · obtain ⟨tokens, hread, -⟩ := h.walked
    cases hmalformed.symm.trans hread
  · obtain ⟨tokens, hread, hwalk⟩ := h.walked
    cases hother.symm.trans hread
    exact absurd hwalk (by decide +kernel)

end Value

end ApiLint
