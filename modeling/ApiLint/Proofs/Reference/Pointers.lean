import ApiLint.Proofs.Digits
import ApiLint.Reference
import Mathlib.Data.List.Forall2

/-!
# Pointers

The standard for pointers into JSON evaluates the tokens of a pointer one after another (`Value.Designates`).  In an
object a token is the name of a member.  In an array it is an index, in digits without a sign and without a zero in
front of others.  Below a scalar there is nothing.

The walk along a pointer finds all that the standard designates.  It takes more spellings of an index, for it lets a
plus sign and zeros stand in front (`follow?_eq_some_iff`), and that is the only difference: it leads where the standard
form of its tokens leads, and it is a walk of the standard if and only if its tokens are in this form
(`Value.walkedAlike`).
-/

namespace ApiLint

open Json.Grammar (Digits)

/-- An index in the standard form: digits without a sign, and no zero in front of others. -/
structure StandardIndex (cs : List Char) (i : Nat) : Prop where
  digits : Digits cs
  noLeadingZero : cs.head? = some '0' → cs = ['0']
  value : Nat.ofDigitChars 10 cs 0 = i

/-- How a token may spell a segment.  A name stands for itself, and the digits of an index may have a plus sign and
zeros in front. -/
def Spells (token : String) : Segment → Prop
  | .key k => token = k
  | .index i => ∃ sign zeros, (sign = [] ∨ sign = ['+']) ∧
    token.toList = sign ++ (List.replicate zeros '0' ++ Nat.toDigits 10 i)

/-! ### Indexes -/

theorem toList_text_index (i : Nat) : (Segment.index i).text.toList = Nat.toDigits 10 i := by
  show (Nat.repr i).toList = _
  rw [Nat.repr, String.toList_ofList]

theorem standardIndex_iff {cs : List Char} {i : Nat} : StandardIndex cs i ↔ cs = Nat.toDigits 10 i := by
  rw [eq_toDigits_iff, digitsValue_eq_ofDigitChars]
  exact ⟨fun h => ⟨h.digits, h.noLeadingZero, h.value⟩, fun h => ⟨h.1, h.2.1, h.2.2⟩⟩

theorem standardIndex_iff_text {token : String} {i : Nat} :
    StandardIndex token.toList i ↔ token = (Segment.index i).text := by
  rw [standardIndex_iff, ← toList_text_index, String.toList_inj]

/-- The standard form of a segment is one of its spellings. -/
theorem spells_text (s : Segment) : Spells s.text s := by
  cases s with
  | key k => rfl
  | index i => exact ⟨[], 0, .inl rfl, toList_text_index i⟩

theorem tokenIndex?_of_digits {sign ds : List Char} (hsign : sign = [] ∨ sign = ['+']) (hds : Digits ds) :
    tokenIndex? (sign ++ ds) = some (digitsValue ds) := by
  obtain ⟨hne, hdigits⟩ := hds
  have hall : (!ds.isEmpty && ds.all Char.isDigit) = true := by
    rw [Bool.and_eq_true, Bool.not_eq_true', List.isEmpty_eq_false_iff, List.all_eq_true]
    exact ⟨hne, hdigits⟩
  rcases hsign with rfl | rfl
  · rw [List.nil_append, tokenIndex?]
    · exact if_pos hall
    · -- a plus sign is no digit
      rintro rest rfl
      exact absurd (hdigits '+' (List.mem_cons_self ..)) (by decide)
  · exact if_pos hall

theorem exists_of_tokenIndex? {cs : List Char} {i : Nat} (h : tokenIndex? cs = some i) :
    ∃ sign ds, (sign = [] ∨ sign = ['+']) ∧ cs = sign ++ ds ∧ Digits ds ∧ digitsValue ds = i := by
  have hdigits : ∀ {ds}, (if !ds.isEmpty && ds.all Char.isDigit then some (digitsValue ds) else none) = some i →
      Digits ds ∧ digitsValue ds = i := by
    intro ds hds
    split at hds
    · next hall =>
      rw [Bool.and_eq_true, Bool.not_eq_true', List.isEmpty_eq_false_iff, List.all_eq_true] at hall
      exact ⟨hall, Option.some.inj hds⟩
    · cases hds
  by_cases hplus : ∃ ds, cs = '+' :: ds
  · obtain ⟨ds, rfl⟩ := hplus
    exact ⟨['+'], ds, .inr rfl, rfl, hdigits h⟩
  · refine ⟨[], cs, .inl rfl, rfl, hdigits ?_⟩
    rw [← h, tokenIndex?]
    exact fun ds hds => hplus ⟨ds, hds⟩

/-- **A token is read as the index that it spells.** -/
theorem tokenIndex?_eq_some_iff {token : String} {i : Nat} :
    tokenIndex? token.toList = some i ↔ Spells token (.index i) := by
  constructor
  · intro h
    obtain ⟨sign, ds, hsign, htoken, hds, rfl⟩ := exists_of_tokenIndex? h
    obtain ⟨zeros, heq⟩ := exists_eq_replicate_zero_append hds
    exact ⟨sign, zeros, hsign, by rw [htoken, ← heq]⟩
  · rintro ⟨sign, zeros, hsign, htoken⟩
    rw [htoken, tokenIndex?_of_digits hsign (digits_zeros_append zeros (digits_toDigits i)), digitsValue_zeros_append,
      digitsValue_toDigits]

namespace Value

/-! ### Walking -/

/-- By the standard, the tokens designate the node `w` at the path. -/
inductive Designates : Value → List String → Path → Value → Prop
  | here (v : Value) : Designates v [] [] v
  | member {members : List (String × Value)} {k : String} {c w : Value} {tokens : List String} {p : Path} :
    List.lookup k members = some c → Designates c tokens p w → Designates (object members) (k :: tokens) (.key k :: p) w
  | element {items : List Value} {token : String} {i : Nat} {c w : Value} {tokens : List String} {p : Path} :
    StandardIndex token.toList i → items[i]? = some c → Designates c tokens p w →
    Designates (array items) (token :: tokens) (.index i :: p) w

variable {v c w : Value} {s : Segment} {token : String} {tokens : List String} {p : Path}

/-- A token leads to the child under a segment if and only if it spells the segment. -/
theorem tokenSegment?_iff (hc : v.child? s = some c) : v.tokenSegment? token = some s ↔ Spells token s := by
  cases s with
  | key k =>
    cases v with
    | object members =>
      rw [tokenSegment?, Option.some.injEq, Segment.key.injEq]
      rfl
    | _ => cases hc
  | index i =>
    cases v with
    | array items =>
      rw [tokenSegment?, Option.map_eq_some_iff, ← tokenIndex?_eq_some_iff]
      constructor
      · rintro ⟨j, hj, heq⟩
        cases heq
        exact hj
      · exact fun h => ⟨i, h, rfl⟩
    | _ => cases hc

/-- **A walk leads along the paths to nodes that its tokens spell.** -/
theorem follow?_eq_some_iff : v.follow? tokens = some p ↔ (v.get? p).isSome ∧ List.Forall₂ Spells tokens p := by
  induction tokens generalizing v p with
  | nil =>
    rw [follow?, Option.some.injEq, List.forall₂_nil_left_iff]
    constructor
    · rintro rfl
      exact ⟨rfl, rfl⟩
    · exact fun h => h.2.symm
  | cons token tokens ih =>
    constructor
    · intro h
      rw [follow?] at h
      obtain ⟨s, hs, h⟩ := Option.bind_eq_some_iff.mp h
      obtain ⟨c, hc, h⟩ := Option.bind_eq_some_iff.mp h
      obtain ⟨q, hq, heq⟩ := Option.bind_eq_some_iff.mp h
      cases heq
      obtain ⟨hnode, hspells⟩ := ih.mp hq
      refine ⟨?_, .cons ((tokenSegment?_iff hc).mp hs) hspells⟩
      rw [get?_cons, hc]
      exact hnode
    · rintro ⟨hnode, hspells⟩
      cases hspells with
      | @cons _ s _ q hs hspells =>
        cases hc : v.child? s with
        | none =>
          rw [get?_cons, hc] at hnode
          cases hnode
        | some c =>
          rw [get?_cons, hc] at hnode
          rw [follow?, (tokenSegment?_iff hc).mpr hs]
          dsimp only [Option.bind_eq_bind, Option.bind_some]
          rw [hc, Option.bind_some, ih.mpr ⟨hnode, hspells⟩]
          rfl

/-- **The standard designates a node by the standard form of its path.** -/
theorem designates_iff : v.Designates tokens p w ↔ v.get? p = some w ∧ tokens = p.map Segment.text := by
  constructor
  · intro h
    induction h with
    | here v => exact ⟨rfl, rfl⟩
    | @member members k c w tokens p hc _ ih =>
      refine ⟨?_, congrArg (k :: ·) ih.2⟩
      rw [get?_cons, show (object members).child? (.key k) = some c from hc]
      exact ih.1
    | @element items token i c w tokens p htoken hc _ ih =>
      refine ⟨?_, ?_⟩
      · rw [get?_cons, show (array items).child? (.index i) = some c from hc]
        exact ih.1
      · rw [ih.2, standardIndex_iff_text.mp htoken]
        rfl
  · rintro ⟨hnode, rfl⟩
    induction p generalizing v with
    | nil =>
      cases hnode
      exact .here _
    | cons s p ih =>
      obtain ⟨c, hc, hrest⟩ := Option.bind_eq_some_iff.mp hnode
      cases s with
      | key k =>
        cases v with
        | object members => exact .member hc (ih hrest)
        | _ => cases hc
      | index i =>
        cases v with
        | array items => exact .element (standardIndex_iff_text.mpr rfl) hc (ih hrest)
        | _ => cases hc

/-- The bare texts of the segments lead to the node. -/
theorem follow?_map_text (h : (v.get? p).isSome) : v.follow? (p.map Segment.text) = some p := by
  refine follow?_eq_some_iff.mpr ⟨h, ?_⟩
  rw [List.forall₂_map_left_iff]
  exact List.forall₂_same.mpr fun s _ => spells_text s

/-! ### Against the standard -/

def IndexesStandard (tokens : List String) (p : Path) : Prop :=
  ∀ x ∈ tokens.zip p, ∀ i, x.2 = .index i → StandardIndex x.1.toList i

structure WalkedAlike (v : Value) (tokens : List String) : Prop where
  /-- What the standard designates is what is walked to with every index in its standard form. -/
  standard : ∀ p w, v.Designates tokens p w ↔
    v.follow? tokens = some p ∧ v.get? p = some w ∧ tokens = p.map Segment.text
  /-- What is walked to is what the standard designates by the tokens that were spelled. -/
  spelled : ∀ p, v.follow? tokens = some p ↔
    (∃ w, v.get? p = some w ∧ v.Designates (p.map Segment.text) p w) ∧ List.Forall₂ Spells tokens p
  /-- Where no index on the way has a plus sign or a zero in front, one succeeds if and only if the other does. -/
  alike : (∀ p, v.follow? tokens = some p → IndexesStandard tokens p) →
    ((v.follow? tokens).isSome ↔ ∃ p w, v.Designates tokens p w)

/-- Where indexes are in the standard form, so is everything. -/
theorem eq_map_text_of_standard (h : List.Forall₂ Spells tokens p) (hstandard : IndexesStandard tokens p) :
    tokens = p.map Segment.text := by
  induction h with
  | nil => rfl
  | @cons token s tokens p htoken _ ih =>
    have hs : token = s.text := by
      cases s with
      | key k => exact htoken
      | index i => exact standardIndex_iff_text.mp (hstandard (token, .index i) (List.mem_cons_self ..) i rfl)
    rw [List.map_cons, ← hs, ← ih fun x hx => hstandard x (List.mem_cons_of_mem _ hx)]

/-- **A pointer is walked as the standard evaluates it**, except that an index may have a plus sign and zeros in
front. -/
theorem walkedAlike (v : Value) (tokens : List String) : v.WalkedAlike tokens := by
  have hnode : ∀ p w, v.get? p = some w → v.Designates (p.map Segment.text) p w :=
    fun p w hw => designates_iff.mpr ⟨hw, rfl⟩
  have hstandard : ∀ p w, v.Designates tokens p w ↔
      v.follow? tokens = some p ∧ v.get? p = some w ∧ tokens = p.map Segment.text := by
    intro p w
    rw [designates_iff]
    refine ⟨fun h => ⟨?_, h⟩, fun h => h.2⟩
    rw [h.2]
    exact follow?_map_text (by rw [h.1]; rfl)
  refine ⟨hstandard, fun p => ?spelled, fun hplain => ?alike⟩
  case spelled =>
    rw [follow?_eq_some_iff, Option.isSome_iff_exists]
    exact and_congr_left fun _ => exists_congr fun w => ⟨fun hw => ⟨hw, hnode p w hw⟩, And.left⟩
  case alike =>
    constructor
    · intro h
      obtain ⟨p, hp⟩ := Option.isSome_iff_exists.mp h
      obtain ⟨hsome, hspells⟩ := follow?_eq_some_iff.mp hp
      obtain ⟨w, hw⟩ := Option.isSome_iff_exists.mp hsome
      exact ⟨p, w, (hstandard p w).mpr ⟨hp, hw, eq_map_text_of_standard hspells (hplain p hp)⟩⟩
    · rintro ⟨p, w, h⟩
      rw [((hstandard p w).mp h).1]
      rfl

/-- A name may be digits with a zero in front: it is met in an object, and the indexes around it are in the standard
form. -/
theorem walkedAlike_of_numeric_name :
    let v : Value := array [null, object [("01", array [bool true]), ("+1", null)]]
    v.WalkedAlike ["1", "01", "0"] ∧ v.Designates ["1", "01", "0"] [.index 1, .key "01", .index 0] (bool true) ∧
      ¬ ∃ p w, v.Designates ["1", "01", "1"] p w := by
  refine ⟨walkedAlike _ _, ((walkedAlike _ _).standard _ _).mpr ⟨rfl, rfl, rfl⟩, ?_⟩
  rintro ⟨p, w, h⟩
  cases ((walkedAlike _ _).standard p w |>.mp h).1

/-- A zero or a plus sign in front of an index makes it designate nothing by the standard, but it is walked to. -/
theorem walked_beyond_standard :
    (array [null, null]).follow? ["01"] = some [.index 1] ∧ (array [null, null]).follow? ["+1"] = some [.index 1] ∧
      (¬ ∃ p w, (array [null, null]).Designates ["01"] p w) ∧ ¬ ∃ p w, (array [null, null]).Designates ["+1"] p w := by
  have hnone : ∀ token : String, token.toList ≠ Nat.toDigits 10 1 →
      (array [null, null]).follow? [token] = some [.index 1] → ¬ ∃ p w, (array [null, null]).Designates [token] p w := by
    rintro token htoken hfollow ⟨p, w, h⟩
    obtain ⟨hnode, htokens⟩ := designates_iff.mp h
    have hwalk : (array [null, null]).follow? [token] = some p := htokens ▸ follow?_map_text (by rw [hnode]; rfl)
    obtain rfl : [.index 1] = p := Option.some.inj (hfollow.symm.trans hwalk)
    exact htoken (by rw [List.singleton_inj.mp htokens, toList_text_index])
  exact ⟨rfl, rfl, hnone "01" (by decide) rfl, hnone "+1" (by decide) rfl⟩

end Value

end ApiLint
