import ApiLint.Proofs.CanonicalPath
import ApiLint.Proofs.Graph.Growth
import ApiLint.Proofs.Json.Strings
import ApiLint.Proofs.Traversal

/-!
# Texts of references

A reference is cut at its first number sign into a file and a fragment, and the fragment at its slashes into pieces.  In
a piece, a percent sign and two places stand for one byte (`PercentText`), and the bytes of a piece must be UTF-8.

`Judged` says which texts are references, what their tokens are, and that all other texts are malformed, for a meaning
of the two places.  The first of two hexadecimal digits may be given up for a plus sign (`SignedPlaces`), and with this
meaning every text is judged so.  Where no plus sign stands behind a percent sign, the two places are hexadecimal digits
(`HexPlaces`): this is `judged`.
-/

namespace ApiLint

namespace Reference

open Json.Grammar (HexDigit hexDigit?_eq_some_iff)

def HexPlaces (a b : Char) (n : Nat) : Prop :=
  ∃ i j, HexDigit a i ∧ HexDigit b j ∧ n = i * 16 + j

/-- Two hexadecimal digits, or a plus sign and one. -/
def SignedPlaces (a b : Char) (n : Nat) : Prop :=
  HexPlaces a b n ∨ a = '+' ∧ HexDigit b n

/-- The bytes of a text in which a percent sign and two places stand for one byte. -/
inductive PercentText (places : Char → Char → Nat → Prop) : List Char → List UInt8 → Prop
  | nil : PercentText places [] []
  | code {a b : Char} {n : Nat} {cs : List Char} {bytes : List UInt8} :
    places a b n → PercentText places cs bytes → PercentText places ('%' :: a :: b :: cs) (n.toUInt8 :: bytes)
  | char {c : Char} {cs : List Char} {bytes : List UInt8} :
    c ≠ '%' → PercentText places cs bytes → PercentText places (c :: cs) (String.utf8EncodeChar c ++ bytes)

/-- Every percent sign is followed by two places. -/
def EveryCode (places : Char → Char → Nat → Prop) (cs : List Char) : Prop :=
  ∀ before after, cs = before ++ '%' :: after → ∃ a b n rest, after = a :: b :: rest ∧ places a b n

def fileText (text : List Char) : List Char :=
  text.takeWhile (· ≠ '#')

def fragment (text : List Char) : List Char :=
  (text.dropWhile (· ≠ '#')).tail

def pieces (text : List Char) : List (List Char) :=
  match fragment text with
  | [] => []
  | _ :: pointer => pointer.splitOn '/'

def replaceTilde (digit c : Char) : List Char → List Char
  | a :: b :: cs => if a = '~' ∧ b = digit then c :: replaceTilde digit c cs else a :: replaceTilde digit c (b :: cs)
  | cs => cs

/-- The token that a piece stands for: first the percent codes are replaced, then `~1`, then `~0`. -/
def TokenOf (places : Char → Char → Nat → Prop) (piece : List Char) (token : String) : Prop :=
  ∃ chars : List Char, PercentText places piece (chars.flatMap String.utf8EncodeChar) ∧
    token.toList = replaceTilde '0' '~' (replaceTilde '1' '/' chars)

structure Acceptable (places : Char → Char → Nat → Prop) (text : List Char) : Prop where
  nonempty : text ≠ []
  pointer : fragment text = [] ∨ (fragment text).head? = some '/'
  codes : EveryCode places (fragment text)
  utf8 : ∀ piece ∈ pieces text, ∀ bytes, PercentText places piece bytes → bytes.toByteArray.IsValidUTF8

/-- What becomes of a text as a reference. -/
structure Judged (places : Char → Char → Nat → Prop) (text : String) : Prop where
  /-- It is taken apart if and only if it is acceptable. -/
  accepted : (ofText? text).isSome ↔ Acceptable places text.toList
  /-- The file is the text before the first number sign, and the tokens are those of the pieces. -/
  parts : ∀ r, ofText? text = some r →
    r.file.toList = fileText text.toList ∧ List.Forall₂ (TokenOf places) (pieces text.toList) r.tokens
  /-- Written in a document, it is malformed if and only if it is not acceptable. -/
  malformed : ∀ files (g : Graph) (source : Document) origin,
    (g.locate files source origin text).1 = .error ⟨source.id, origin, text, .malformed⟩ ↔
      ¬ Acceptable places text.toList

/-! ### Places -/

theorem SignedPlaces.ne {a b c : Char} {n : Nat} (h : SignedPlaces a b n) (hc : StringLiteral.hexDigit? c = none)
    (hplus : c ≠ '+') : a ≠ c ∧ b ≠ c := by
  have hdigit : ∀ {d m}, HexDigit d m → d ≠ c := by
    rintro d m hd rfl
    cases hc.symm.trans (hexDigit?_eq_some_iff.mpr hd)
  rcases h with ⟨i, j, ha, hb, -⟩ | ⟨rfl, hb⟩
  · exact ⟨hdigit ha, hdigit hb⟩
  · exact ⟨hplus.symm, hdigit hb⟩

theorem percentValue?_eq_some_iff {a b : Char} {n : Nat} : percentValue? a b = some n ↔ SignedPlaces a b n := by
  rw [percentValue?]
  split
  · next hplus =>
    subst hplus
    rw [hexDigit?_eq_some_iff]
    refine ⟨fun h => .inr ⟨rfl, h⟩, ?_⟩
    rintro (⟨i, j, ha, -⟩ | ⟨-, h⟩)
    · cases hexDigit?_eq_some_iff.mpr ha
    · exact h
  · next hplus =>
    simp only [Option.bind_eq_bind, Option.bind_eq_some_iff, hexDigit?_eq_some_iff, Option.pure_def,
      Option.some.injEq]
    constructor
    · rintro ⟨i, hi, j, hj, rfl⟩
      exact .inl ⟨i, j, hi, hj, rfl⟩
    · rintro (⟨i, j, hi, hj, rfl⟩ | ⟨ha, -⟩)
      · exact ⟨i, hi, j, hj, rfl⟩
      · exact absurd ha hplus

/-! ### Bytes -/

section Codes

variable {places places' : Char → Char → Nat → Prop} {cs ds : List Char} {bytes bytes' : List UInt8}

theorem PercentText.mono (hplaces : ∀ {a b n}, places a b n → places' a b n) (h : PercentText places cs bytes) :
    PercentText places' cs bytes := by
  induction h with
  | nil => exact .nil
  | code hn _ ih => exact .code (hplaces hn) ih
  | char hc _ ih => exact .char hc ih

theorem percentBytes?_eq_some_iff : percentBytes? cs = some bytes ↔ PercentText SignedPlaces cs bytes := by
  constructor
  · intro h
    fun_induction percentBytes? cs generalizing bytes with
    | case1 =>
      cases h
      exact .nil
    | case2 a b rest ih =>
      obtain ⟨n, hn, h⟩ := Option.bind_eq_some_iff.mp h
      obtain ⟨below, hbelow, heq⟩ := Option.bind_eq_some_iff.mp h
      cases heq
      exact .code (percentValue?_eq_some_iff.mp hn) (ih hbelow)
    | case3 => cases h
    | case4 c cs hc ih =>
      obtain ⟨below, hbelow, rfl⟩ := Option.map_eq_some_iff.mp h
      exact .char hc (ih hbelow)
  · intro h
    induction h with
    | nil => rfl
    | code hn _ ih =>
      rw [percentBytes?, if_pos rfl, percentValue?_eq_some_iff.mpr hn, ih]
      rfl
    | char hc _ ih =>
      rw [percentBytes?.eq_def]
      dsimp only
      rw [if_neg hc, ih]
      rfl

theorem PercentText.unique (h : PercentText SignedPlaces cs bytes) (h' : PercentText SignedPlaces cs bytes') :
    bytes = bytes' :=
  Option.some.inj ((percentBytes?_eq_some_iff.mpr h).symm.trans (percentBytes?_eq_some_iff.mpr h'))

/-- Without a percent sign, the bytes are those of the characters. -/
theorem percentText_of_not_mem (h : '%' ∉ cs) : PercentText places cs (cs.flatMap String.utf8EncodeChar) := by
  induction cs with
  | nil => exact .nil
  | cons c cs ih =>
    rw [List.mem_cons, not_or] at h
    exact .char (Ne.symm h.1) (ih h.2)

theorem flatMap_utf8EncodeChar_inj :
    cs.flatMap String.utf8EncodeChar = ds.flatMap String.utf8EncodeChar ↔ cs = ds := by
  refine ⟨fun h => String.ofList_injective ?_, fun h => h ▸ rfl⟩
  rw [← String.toByteArray_inj, String.toByteArray_ofList, String.toByteArray_ofList, List.utf8Encode, h,
    List.utf8Encode]

theorem toByteArray_inj : bytes.toByteArray = bytes'.toByteArray ↔ bytes = bytes' := by
  refine ⟨fun h => ?_, fun h => h ▸ rfl⟩
  have hdata := congrArg ByteArray.data h
  rw [List.data_toByteArray, List.data_toByteArray] at hdata
  exact List.toArray_inj hdata

theorem isValidUTF8_iff :
    bytes.toByteArray.IsValidUTF8 ↔ ∃ chars : List Char, bytes = chars.flatMap String.utf8EncodeChar := by
  constructor
  · rintro ⟨chars, h⟩
    exact ⟨chars, toByteArray_inj.mp h⟩
  · rintro ⟨chars, rfl⟩
    exact ⟨chars, rfl⟩

theorem mk_toArray (bytes : List UInt8) : ByteArray.mk bytes.toArray = bytes.toByteArray :=
  ByteArray.ext List.data_toByteArray.symm

theorem fromUTF8?_eq_some_iff {text : String} :
    String.fromUTF8? bytes.toByteArray = some text ↔ bytes = text.toList.flatMap String.utf8EncodeChar := by
  have htext : text.toByteArray = (text.toList.flatMap String.utf8EncodeChar).toByteArray :=
    String.utf8Encode_toList.symm
  rw [← toByteArray_inj, ← htext, String.fromUTF8?]
  split
  · next hvalid =>
    rw [Option.some.injEq, ← String.toByteArray_inj]
    rfl
  · next hvalid =>
    refine ⟨nofun, fun h => absurd ?_ hvalid⟩
    rw [h]
    exact text.isValidUTF8

/-- **A piece is decoded to the characters whose bytes it stands for.** -/
theorem percentDecode?_eq_some_iff :
    percentDecode? cs = some ds ↔ PercentText SignedPlaces cs (ds.flatMap String.utf8EncodeChar) := by
  rw [percentDecode?]
  split
  · simp only [mk_toArray, Option.bind_eq_bind, Option.bind_eq_some_iff, percentBytes?_eq_some_iff,
      fromUTF8?_eq_some_iff, Option.pure_def, Option.some.injEq]
    constructor
    · rintro ⟨_, hbytes, text, rfl, rfl⟩
      exact hbytes
    · intro h
      refine ⟨_, h, String.ofList ds, ?_, String.toList_ofList⟩
      rw [String.toList_ofList]
  · next hpercent =>
    have hplain : PercentText SignedPlaces cs (cs.flatMap String.utf8EncodeChar) :=
      percentText_of_not_mem fun hmem => hpercent (List.contains_iff_mem.mpr hmem)
    rw [Option.some.injEq]
    constructor
    · rintro rfl
      exact hplain
    · exact fun h => flatMap_utf8EncodeChar_inj.mp (hplain.unique h)

/-! ### Codes -/

variable (hplaces : ∀ {a b n}, places a b n → SignedPlaces a b n)

include hplaces in
/-- A text stands for bytes if and only if every percent sign in it is followed by two places. -/
theorem everyCode_iff : EveryCode places cs ↔ ∃ bytes, PercentText places cs bytes := by
  constructor
  · intro h
    fun_induction percentBytes? cs with
    | case1 => exact ⟨[], .nil⟩
    | case2 a b rest ih =>
      obtain ⟨_, _, n, _, heq, hn⟩ := h [] _ rfl
      cases heq
      obtain ⟨bytes, hbytes⟩ := ih fun before after hrest => h ('%' :: a :: b :: before) after (by rw [hrest]; rfl)
      exact ⟨_, .code hn hbytes⟩
    | case3 cs hshort =>
      obtain ⟨a, b, n, rest, heq, -⟩ := h [] _ rfl
      exact absurd heq (hshort a b rest)
    | case4 c cs hc ih =>
      obtain ⟨bytes, hbytes⟩ := ih fun before after hcs => h (c :: before) after (by rw [hcs]; rfl)
      exact ⟨_, .char hc hbytes⟩
  · rintro ⟨bytes, h⟩ before after heq
    induction h generalizing before with
    | nil => exact absurd heq.symm (List.append_ne_nil_of_right_ne_nil _ (List.cons_ne_nil _ _))
    | @code a b n cs _ hn _ ih =>
      -- the places are no percent signs
      obtain ⟨ha, hb⟩ := (hplaces hn).ne (c := '%') rfl (by decide)
      rcases before with _ | ⟨c, _ | ⟨d, _ | ⟨e, before⟩⟩⟩
      · exact ⟨a, b, n, cs, (List.cons.inj heq).2.symm, hn⟩
      · exact absurd (List.cons.inj (List.cons.inj heq).2).1 ha
      · exact absurd (List.cons.inj (List.cons.inj (List.cons.inj heq).2).2).1 hb
      · exact ih before (List.cons.inj (List.cons.inj (List.cons.inj heq).2).2).2
    | char hc _ ih =>
      cases before with
      | nil => exact absurd (List.cons.inj heq).1 hc
      | cons c before => exact ih before (List.cons.inj heq).2

include hplaces in
/-- No code reaches across a slash. -/
theorem everyCode_append_slash :
    EveryCode places (cs ++ '/' :: ds) ↔ EveryCode places cs ∧ EveryCode places ds := by
  constructor
  · intro h
    constructor
    · rintro before after rfl
      obtain ⟨a, b, n, rest, heq, hn⟩ := h before (after ++ '/' :: ds) (by rw [List.append_assoc]; rfl)
      obtain ⟨ha, hb⟩ := (hplaces hn).ne (c := '/') rfl (by decide)
      rcases after with _ | ⟨c, _ | ⟨d, after⟩⟩
      · exact absurd (List.cons.inj heq).1.symm ha
      · exact absurd (List.cons.inj (List.cons.inj heq).2).1.symm hb
      · cases heq
        exact ⟨_, _, n, after, rfl, hn⟩
    · rintro before after rfl
      exact h (cs ++ '/' :: before) after (by rw [List.append_assoc]; rfl)
  · rintro ⟨hcs, hds⟩ before after heq
    rcases List.append_eq_append_iff.mp heq with ⟨middle, rfl, hmiddle⟩ | ⟨middle, rfl, hmiddle⟩
    · cases middle with
      | nil => cases (List.cons.inj hmiddle).1
      | cons c middle => exact hds middle after (List.cons.inj hmiddle).2
    · cases middle with
      | nil => cases (List.cons.inj hmiddle).1
      | cons c middle =>
        cases hmiddle
        obtain ⟨a, b, n, rest, rfl, hn⟩ := hcs before middle rfl
        exact ⟨a, b, n, rest ++ '/' :: ds, rfl, hn⟩

include hplaces in
theorem everyCode_splitOn (cs : List Char) :
    EveryCode places cs ↔ ∀ piece ∈ cs.splitOn '/', EveryCode places piece := by
  induction hn : cs.length using Nat.strong_induction_on generalizing cs with
  | _ n ih =>
    by_cases hslash : '/' ∈ cs
    · obtain ⟨piece, rest, rfl, hpiece⟩ := List.eq_append_cons_of_mem hslash
      have hlt : rest.length < n := by
        rw [← hn, List.length_append, List.length_cons]
        omega
      rw [List.splitOn_append_cons_self_of_not_mem hpiece, everyCode_append_slash hplaces, List.forall_mem_cons,
        ih _ hlt rest rfl]
    · rw [List.splitOn_eq_singleton hslash, List.forall_mem_singleton]

/-- Where the places of every code are hexadecimal digits, a plus sign makes no difference. -/
theorem percentText_iff_of_everyCode (h : EveryCode HexPlaces cs) :
    PercentText SignedPlaces cs bytes ↔ PercentText HexPlaces cs bytes := by
  constructor
  · intro hbytes
    obtain ⟨bytes', hbytes'⟩ := (everyCode_iff .inl).mp h
    rwa [hbytes.unique (hbytes'.mono .inl)]
  · exact fun hbytes => hbytes.mono .inl

theorem everyCode_of_no_plus (h : EveryCode SignedPlaces cs) (hplus : ¬ ['%', '+'] <:+: cs) :
    EveryCode HexPlaces cs := by
  intro before after heq
  obtain ⟨a, b, n, rest, rfl, hn | ⟨rfl, -⟩⟩ := h before after heq
  · exact ⟨a, b, n, rest, rfl, hn⟩
  · exact absurd ⟨before, b :: rest, by rw [heq, List.append_assoc]; rfl⟩ hplus

end Codes

/-! ### Tildes -/

theorem replaceTilde_cons_of_ne {digit c a : Char} (ha : a ≠ '~') (cs : List Char) :
    replaceTilde digit c (a :: cs) = a :: replaceTilde digit c cs := by
  cases cs with
  | nil => rfl
  | cons b cs => rw [replaceTilde, if_neg fun h => ha h.1]

/-- **Taking out both tilde codes in one pass is taking out the slashes first, and the tildes then.** -/
theorem unescapeToken_eq (cs : List Char) :
    unescapeToken cs = replaceTilde '0' '~' (replaceTilde '1' '/' cs) := by
  fun_induction unescapeToken cs with
  | case1 => rfl
  | case2 c => rfl
  | case3 c d cs h ih => rw [replaceTilde, if_pos h, replaceTilde_cons_of_ne (by decide), ih]
  | case4 c d cs h1 h0 ih =>
    obtain ⟨rfl, rfl⟩ := h0
    rw [replaceTilde, if_neg h1, replaceTilde_cons_of_ne (c := '/') (by decide), replaceTilde, if_pos ⟨rfl, rfl⟩, ih]
  | case5 c d cs h1 h0 ih =>
    rw [replaceTilde, if_neg h1, ih]
    by_cases hc : c = '~'
    · -- the first pass puts no zero behind the tilde
      obtain ⟨e, es, heq, he⟩ : ∃ e es, replaceTilde '1' '/' (d :: cs) = e :: es ∧ e ≠ '0' := by
        cases cs with
        | nil => exact ⟨d, [], rfl, fun hd => h0 ⟨hc, hd⟩⟩
        | cons e es =>
          rw [replaceTilde]
          split
          · exact ⟨_, _, rfl, by decide⟩
          · exact ⟨_, _, rfl, fun hd => h0 ⟨hc, hd⟩⟩
      rw [heq, replaceTilde, if_neg fun h => he h.2]
    · rw [replaceTilde_cons_of_ne hc]

theorem token?_eq_some_iff {piece : List Char} {token : String} :
    token? piece = some token ↔ TokenOf SignedPlaces piece token := by
  rw [token?, Option.map_eq_some_iff]
  refine exists_congr fun chars => and_congr percentDecode?_eq_some_iff ?_
  rw [unescapeToken_eq, ← String.toList_inj, String.toList_ofList]
  exact eq_comm

/-! ### Whole references -/

theorem cut_eq (sep : Char) (cs : List Char) :
    cut sep cs = (cs.takeWhile (· ≠ sep), (cs.dropWhile (· ≠ sep)).tail) := by
  induction cs with
  | nil => rfl
  | cons c cs ih =>
    rw [cut]
    split
    · next h => rw [List.takeWhile_cons_of_neg (by simpa using h), List.dropWhile_cons_of_neg (by simpa using h)]; rfl
    · next h => rw [List.takeWhile_cons_of_pos (by simpa using h), List.dropWhile_cons_of_pos (by simpa using h), ih]

/-- **A text is taken apart at its first number sign and at the slashes behind it.** -/
theorem ofText?_eq_some_iff {text : String} {r : Reference} :
    ofText? text = some r ↔
      text.toList ≠ [] ∧ (fragment text.toList = [] ∨ (fragment text.toList).head? = some '/') ∧
      r.file.toList = fileText text.toList ∧ List.Forall₂ (TokenOf SignedPlaces) (pieces text.toList) r.tokens := by
  obtain ⟨file, tokens⟩ := r
  have hfile : ∀ file', String.ofList file' = file ↔ file.toList = file' := by
    intro file'
    rw [← String.toList_inj, String.toList_ofList, eq_comm]
  rw [ofText?, cut_eq, ← fileText, ← fragment, pieces]
  by_cases hempty : text.toList = []
  · rw [if_pos (by rw [String.isEmpty_iff, ← String.toList_eq_nil_iff]; exact hempty)]
    exact ⟨nofun, fun h => absurd hempty h.1⟩
  · rw [if_neg (by rw [String.isEmpty_iff, ← String.toList_eq_nil_iff]; exact hempty)]
    dsimp only
    cases hfragment : fragment text.toList with
    | nil =>
      rw [Option.some.injEq, mk.injEq, hfile, List.forall₂_nil_left_iff, eq_comm (a := [])]
      exact ⟨fun h => ⟨hempty, .inl rfl, h⟩, fun h => h.2.2⟩
    | cons c pointer =>
      dsimp only
      by_cases hslash : c = '/'
      · rw [if_pos hslash, Option.map_eq_some_iff]
        simp only [mapM_eq_some_iff, token?_eq_some_iff, mk.injEq, hfile]
        constructor
        · rintro ⟨tokens, htokens, hfile, rfl⟩
          exact ⟨hempty, .inr (congrArg some hslash), hfile, htokens⟩
        · rintro ⟨-, -, hfile, htokens⟩
          exact ⟨tokens, htokens, hfile, rfl⟩
      · rw [if_neg hslash]
        refine ⟨nofun, ?_⟩
        rintro ⟨-, hnil | hhead, -⟩
        · cases hnil
        · exact absurd (Option.some.inj hhead) hslash

theorem exists_tokenOf_iff {piece : List Char} :
    (∃ token, TokenOf SignedPlaces piece token) ↔
      EveryCode SignedPlaces piece ∧
      ∀ bytes, PercentText SignedPlaces piece bytes → bytes.toByteArray.IsValidUTF8 := by
  constructor
  · rintro ⟨token, chars, hchars, -⟩
    exact ⟨(everyCode_iff id).mpr ⟨_, hchars⟩, fun bytes hbytes => isValidUTF8_iff.mpr ⟨chars, hbytes.unique hchars⟩⟩
  · rintro ⟨hcodes, hutf8⟩
    obtain ⟨bytes, hbytes⟩ := (everyCode_iff id).mp hcodes
    obtain ⟨chars, rfl⟩ := isValidUTF8_iff.mp (hutf8 bytes hbytes)
    exact ⟨String.ofList _, chars, hbytes, String.toList_ofList⟩

theorem exists_forall₂_iff {α β : Type} {R : α → β → Prop} {xs : List α} :
    (∃ ys, List.Forall₂ R xs ys) ↔ ∀ x ∈ xs, ∃ y, R x y := by
  induction xs with
  | nil => exact ⟨fun _ => nofun, fun _ => ⟨[], .nil⟩⟩
  | cons x xs ih =>
    rw [List.forall_mem_cons, ← ih]
    constructor
    · rintro ⟨_, _ | ⟨hy, hys⟩⟩
      exact ⟨⟨_, hy⟩, _, hys⟩
    · rintro ⟨⟨y, hy⟩, ys, hys⟩
      exact ⟨y :: ys, .cons hy hys⟩

/-- The codes of the fragment are those of its pieces. -/
theorem everyCode_fragment_iff {places : Char → Char → Nat → Prop} {text : List Char}
    (hplaces : ∀ {a b n}, places a b n → SignedPlaces a b n)
    (h : fragment text = [] ∨ (fragment text).head? = some '/') :
    EveryCode places (fragment text) ↔ ∀ piece ∈ pieces text, EveryCode places piece := by
  have hnil : EveryCode places [] := (everyCode_iff hplaces).mpr ⟨[], .nil⟩
  rw [pieces]
  cases hfragment : fragment text with
  | nil => exact ⟨fun _ => nofun, fun _ => hnil⟩
  | cons c pointer =>
    rw [hfragment] at h
    obtain rfl : c = '/' := Option.some.inj (h.resolve_left (List.cons_ne_nil _ _))
    rw [← everyCode_splitOn hplaces]
    have hslash : EveryCode places ([] ++ '/' :: pointer) ↔ EveryCode places [] ∧ EveryCode places pointer :=
      everyCode_append_slash hplaces
    exact hslash.trans (and_iff_right hnil)

theorem isSome_ofText?_iff (text : String) : (ofText? text).isSome ↔ Acceptable SignedPlaces text.toList := by
  rw [Option.isSome_iff_exists]
  constructor
  · rintro ⟨r, h⟩
    obtain ⟨hempty, hpointer, -, htokens⟩ := ofText?_eq_some_iff.mp h
    have hpieces := exists_forall₂_iff.mp ⟨r.tokens, htokens⟩
    exact ⟨hempty, hpointer,
      (everyCode_fragment_iff id hpointer).mpr fun piece hpiece => (exists_tokenOf_iff.mp (hpieces piece hpiece)).1,
      fun piece hpiece => (exists_tokenOf_iff.mp (hpieces piece hpiece)).2⟩
  · intro h
    have hcodes := (everyCode_fragment_iff id h.pointer).mp h.codes
    obtain ⟨tokens, htokens⟩ := exists_forall₂_iff.mpr fun piece hpiece =>
      exists_tokenOf_iff.mpr ⟨hcodes piece hpiece, h.utf8 piece hpiece⟩
    exact ⟨⟨String.ofList (fileText text.toList), tokens⟩,
      ofText?_eq_some_iff.mpr ⟨h.nonempty, h.pointer, String.toList_ofList, htokens⟩⟩

/-- Nothing but a text that is no reference is called malformed. -/
theorem designated_eq_malformed_iff (source : Document) (origin : Path) (text : String)
    (named : Option (DocumentId × Except LoadError Document)) :
    Graph.designated source origin text named = .error ⟨source.id, origin, text, .malformed⟩ ↔
      ofText? text = none := by
  have hpointed : ∀ tokens target,
      Graph.pointed source origin text tokens target ≠ .error ⟨source.id, origin, text, .malformed⟩ := by
    intro tokens target h
    rw [Graph.pointed] at h
    split at h
    · cases h
    · cases h
  rw [Graph.designated]
  cases ofText? text with
  | none => exact iff_of_true rfl rfl
  | some r =>
    refine iff_of_false ?_ nofun
    match named with
    | none => exact hpointed _ _
    | some (id, .error e) => exact nofun
    | some (_, .ok target) => exact hpointed _ _

theorem locate_eq_malformed_iff (files : FileSystem) (g : Graph) (source : Document) (origin : Path) (text : String) :
    (g.locate files source origin text).1 = .error ⟨source.id, origin, text, .malformed⟩ ↔ ofText? text = none := by
  rw [Graph.locate_eq]
  cases g.target? source text with
  | none => exact designated_eq_malformed_iff source origin text none
  | some id => exact designated_eq_malformed_iff source origin text (some (id, _))

/-! ### The judgement -/

theorem judged_signed (text : String) : Judged SignedPlaces text where
  accepted := isSome_ofText?_iff text
  parts _ h := (ofText?_eq_some_iff.mp h).2.2
  malformed files g source origin := by
    rw [locate_eq_malformed_iff, ← isSome_ofText?_iff, Option.not_isSome_iff_eq_none]

/-- Where no code begins with a plus sign, the text is acceptable or not with either meaning of the places. -/
theorem acceptable_iff_of_no_plus {text : List Char} (hplus : ¬ ['%', '+'] <:+: fragment text) :
    Acceptable SignedPlaces text ↔ Acceptable HexPlaces text := by
  constructor
  · intro h
    exact ⟨h.nonempty, h.pointer, everyCode_of_no_plus h.codes hplus,
      fun piece hpiece bytes hbytes => h.utf8 piece hpiece bytes (hbytes.mono .inl)⟩
  · intro h
    have hcodes := (everyCode_fragment_iff .inl h.pointer).mp h.codes
    refine ⟨h.nonempty, h.pointer, fun before after heq => ?_, fun piece hpiece bytes hbytes => ?_⟩
    · obtain ⟨a, b, n, rest, hafter, hn⟩ := h.codes before after heq
      exact ⟨a, b, n, rest, hafter, .inl hn⟩
    · exact h.utf8 piece hpiece bytes ((percentText_iff_of_everyCode (hcodes piece hpiece)).mp hbytes)

/-- **Every text is judged as a reference with signed places, and with hexadecimal digits for places** unless a plus
sign stands behind a percent sign of the fragment. -/
theorem judged (text : String) :
    Judged SignedPlaces text ∧ (¬ ['%', '+'] <:+: fragment text.toList → Judged HexPlaces text) := by
  have h := judged_signed text
  refine ⟨h, fun hplus => ?_⟩
  have hacceptable := acceptable_iff_of_no_plus hplus
  refine ⟨h.accepted.trans hacceptable, fun r hr => ?parts, fun files g source origin => ?malformed⟩
  case parts =>
    obtain ⟨hfile, htokens⟩ := h.parts r hr
    have hhex := hacceptable.mp (h.accepted.mp (by rw [hr]; rfl))
    have hcodes := (everyCode_fragment_iff .inl hhex.pointer).mp hhex.codes
    refine ⟨hfile, ?_⟩
    refine (List.forall₂_and_left (p := fun piece => EveryCode HexPlaces piece) _ _).mpr ⟨hcodes, htokens⟩ |>.imp ?_
    rintro piece token ⟨hpiece, chars, hchars, htoken⟩
    exact ⟨chars, (percentText_iff_of_everyCode hpiece).mp hchars, htoken⟩
  case malformed =>
    rw [h.malformed files g source origin, hacceptable]

/-- Two codes may stand for one character, and a tilde code for the sign of another. -/
theorem judged_of_nested_codes :
    let text := "a.json#/x~01/%c3%A9%2F"
    Judged HexPlaces text ∧ Acceptable HexPlaces text.toList ∧
      ofText? text = some ⟨"a.json", ["x~1", "é/"]⟩ ∧
      List.Forall₂ (TokenOf HexPlaces) [['x', '~', '0', '1'], ['%', 'c', '3', '%', 'A', '9', '%', '2', 'F']]
        ["x~1", "é/"] := by
  have h : Judged HexPlaces "a.json#/x~01/%c3%A9%2F" := (judged _).2 (by decide +kernel)
  have hparts : ofText? "a.json#/x~01/%c3%A9%2F" = some ⟨"a.json", ["x~1", "é/"]⟩ := by decide +kernel
  exact ⟨h, h.accepted.mp (by rw [hparts]; rfl), hparts, (h.parts _ hparts).2⟩

/-- A plus sign is taken for the first digit of a code. -/
theorem signed_code_accepted :
    ofText? "#/a%+f" = some ⟨"", ["a\x0f"]⟩ ∧ ¬ Acceptable HexPlaces "#/a%+f".toList := by
  refine ⟨by decide +kernel, fun h => ?_⟩
  obtain ⟨_, _, n, _, heq, i, j, hi, -⟩ := h.codes ['/', 'a'] ['+', 'f'] rfl
  cases heq
  cases hexDigit?_eq_some_iff.mpr hi

end Reference

end ApiLint
