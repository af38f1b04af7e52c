import ApiLint.Value
import Mathlib.Data.List.Induction
import Mathlib.Data.List.Nodup

/-!
# The grammar of JSON texts

What a JSON text is and what it denotes, said without a reader: a production is a relation between a piece
of text, from its first character to its last, and what the piece denotes.

* `NumberText`: a numeral without leading zeros, which denotes a number if it is not too large.
* `StringText`: between quotes, characters that stand for themselves, escapes of one letter, and escapes
  of the units that a character has in UTF-16 (`CharText`).  Half a pair of units is no character.
* `Enclosed`: nothing, or entries with commas between them, in a pair of brackets.
* `ValueText n`: a value that has no part inside more than `n` containers.  An object denotes its names in
  the order of their first mention, each with the value of its last mention (`Collected`).
* `JsonText`: one value, a byte order mark allowed in front.

White space is allowed around every token.  `collected_iff` says that the members an object denotes are
determined, and how they are found from left to right.
-/

namespace ApiLint.Json.Grammar

def Blank (ws : List Char) : Prop :=
  ∀ c ∈ ws, c = ' ' ∨ c = '\t' ∨ c = '\n' ∨ c = '\r'

/-! ### Numbers -/

def Digits (ds : List Char) : Prop :=
  ds ≠ [] ∧ ∀ d ∈ ds, d.isDigit = true

def IsFraction (fraction : Option (List Char)) : Prop :=
  ∀ ds, fraction = some ds → Digits ds

def IsExponent (exponent : Option (Char × Option Char × List Char)) : Prop :=
  ∀ e sign ds, exponent = some (e, sign, ds) →
    (e = 'e' ∨ e = 'E') ∧ (sign = none ∨ sign = some '+' ∨ sign = some '-') ∧ Digits ds

/-- The parts of a numeral are what they should be. -/
structure IsNumeral (n : Numeral) : Prop where
  whole : Digits n.whole
  noLeadingZero : n.whole.head? = some '0' → n.whole = ['0']
  fraction : IsFraction n.fraction
  exponent : IsExponent n.exponent

def fractionChars : Option (List Char) → List Char
  | none => []
  | some ds => '.' :: ds

def exponentChars : Option (Char × Option Char × List Char) → List Char
  | none => []
  | some (e, sign, ds) => e :: (sign.toList ++ ds)

def numeralChars (n : Numeral) : List Char :=
  (if n.negative then ['-'] else []) ++ n.whole ++ fractionChars n.fraction ++ exponentChars n.exponent

inductive NumberText : List Char → Number → Prop
  | mk {n : Numeral} {m : Number} :
    IsNumeral n → Number.ofNumeral? n = some m → NumberText (numeralChars n) m

/-! ### Strings -/

inductive Sequence {α : Type} (E : List Char → α → Prop) : List Char → List α → Prop
  | nil : Sequence E [] []
  | cons {cs ds : List Char} {a : α} {as : List α} :
    E cs a → Sequence E ds as → Sequence E (cs ++ ds) (a :: as)

/-- The letters that may stand after a backslash, each with the character that it stands for. -/
def letterEscapes : List (Char × Char) :=
  [('"', '"'), ('\\', '\\'), ('/', '/'), ('b', '\x08'), ('f', '\x0c'), ('n', '\n'), ('r', '\r'), ('t', '\t')]

def HexDigit (c : Char) (n : Nat) : Prop :=
  "0123456789abcdef".toList[n]? = some c ∨ "0123456789ABCDEF".toList[n]? = some c

inductive UnitText : List Char → Nat → Prop
  | mk {a b c d : Char} {i j k l : Nat} : HexDigit a i → HexDigit b j → HexDigit c k → HexDigit d l →
    UnitText ['\\', 'u', a, b, c, d] (((i * 16 + j) * 16 + k) * 16 + l)

/-- The units of a character in UTF-16: its code point, or a high and a low surrogate. -/
def utf16 (c : Char) : List Nat :=
  if c.toNat < 0x10000 then [c.toNat]
  else [0xD800 + (c.toNat - 0x10000) / 0x400, 0xDC00 + (c.toNat - 0x10000) % 0x400]

inductive CharText : List Char → Char → Prop
  | plain {c : Char} : c ≠ '"' → c ≠ '\\' → 0x20 ≤ c.toNat → CharText [c] c
  | letter {l c : Char} : (l, c) ∈ letterEscapes → CharText ['\\', l] c
  | units {cs : List Char} {c : Char} : Sequence UnitText cs (utf16 c) → CharText cs c

inductive StringText : List Char → String → Prop
  | mk {cs : List Char} {s : String} :
    Sequence CharText cs s.toList → StringText ('"' :: (cs ++ ['"'])) s

/-! ### Containers -/

inductive Padded {α : Type} (E : List Char → α → Prop) : List Char → α → Prop
  | mk {ws cs ws' : List Char} {a : α} :
    Blank ws → E cs a → Blank ws' → Padded E (ws ++ cs ++ ws') a

/-- Entries with commas between them, at least one. -/
inductive Separated {α : Type} (E : List Char → α → Prop) : List Char → List α → Prop
  | one {cs : List Char} {a : α} : E cs a → Separated E cs [a]
  | more {cs ds : List Char} {a : α} {as : List α} :
    E cs a → Separated E ds as → Separated E (cs ++ ',' :: ds) (a :: as)

inductive Enclosed {α : Type} (left right : Char) (E : List Char → α → Prop) : List Char → List α → Prop
  | empty {ws : List Char} : Blank ws → Enclosed left right E (left :: (ws ++ [right])) []
  | entries {cs : List Char} {as : List α} :
    Separated E cs as → Enclosed left right E (left :: (cs ++ [right])) as

inductive Member {α : Type} (E : List Char → α → Prop) : List Char → String × α → Prop
  | mk {cs ds : List Char} {k : String} {a : α} :
    Padded StringText cs k → Padded E ds a → Member E (cs ++ ':' :: ds) (k, a)

/-- The members `ms` of a text come to `members`. -/
structure Collected {α : Type} (ms members : List (String × α)) : Prop where
  names : members.map Prod.fst = (ms.map Prod.fst).eraseDups
  last : ∀ k a, (k, a) ∈ members → ∃ before after, ms = before ++ (k, a) :: after ∧ ∀ b, (k, b) ∉ after

/-! ### Values -/

/-- A value whose elements and members are `inner`. -/
inductive ValueOver (inner : List Char → Value → Prop) : List Char → Value → Prop
  | null : ValueOver inner ['n', 'u', 'l', 'l'] .null
  | true : ValueOver inner ['t', 'r', 'u', 'e'] (.bool true)
  | false : ValueOver inner ['f', 'a', 'l', 's', 'e'] (.bool false)
  | number {cs : List Char} {m : Number} : NumberText cs m → ValueOver inner cs (.number m)
  | string {cs : List Char} {s : String} : StringText cs s → ValueOver inner cs (.string s)
  | array {cs : List Char} {vs : List Value} :
    Enclosed '[' ']' (Padded inner) cs vs → ValueOver inner cs (.array vs)
  | object {cs : List Char} {ms members : List (String × Value)} :
    Enclosed '\x7b' '\x7d' (Member inner) cs ms → Collected ms members → ValueOver inner cs (.object members)

/-- A value that has no part inside more than `n` containers. -/
def ValueText : Nat → List Char → Value → Prop
  | 0 => ValueOver fun _ _ => False
  | n + 1 => ValueOver (ValueText n)

inductive JsonText : List Char → Value → Prop
  | mk {mark cs : List Char} {v : Value} :
    mark = [] ∨ mark = ['\ufeff'] → Padded (ValueText 256) cs v → JsonText (mark ++ cs) v

/-! ### The members of an object -/

section Members

variable {α : Type}

/-- The first mention of a name is what is found under it. -/
theorem lookup_eq_some_iff {k : String} {a : α} {ms : List (String × α)} :
    List.lookup k ms = some a ↔ ∃ before after, ms = before ++ (k, a) :: after ∧ ∀ b, (k, b) ∉ before := by
  have hfree : ∀ before : List (String × α), (∀ m ∈ before, (k != m.1) = true) ↔ ∀ b, (k, b) ∉ before := by
    intro before
    constructor
    · exact fun h b hb => bne_iff_ne.mp (h (k, b) hb) rfl
    · rintro h ⟨l, b⟩ hb
      refine bne_iff_ne.mpr ?_
      rintro rfl
      exact h b hb
  simp only [List.lookup_eq_some_iff, hfree]

theorem lookup_reverse_eq_some_iff {k : String} {a : α} {ms : List (String × α)} :
    List.lookup k ms.reverse = some a ↔ ∃ before after, ms = before ++ (k, a) :: after ∧ ∀ b, (k, b) ∉ after := by
  rw [lookup_eq_some_iff]
  constructor
  · rintro ⟨after, before, hms, hafter⟩
    refine ⟨before.reverse, after.reverse, ?_, fun b hb => hafter b (List.mem_reverse.mp hb)⟩
    rw [← List.reverse_reverse ms, hms, List.reverse_append, List.reverse_cons, List.append_assoc]
    rfl
  · rintro ⟨before, after, rfl, hafter⟩
    refine ⟨after.reverse, before.reverse, ?_, fun b hb => hafter b (List.mem_reverse.mp hb)⟩
    rw [List.reverse_append, List.reverse_cons, List.append_assoc]
    rfl

theorem names_assign (k : String) (a : α) (ms : List (String × α)) :
    (assign k a ms).map Prod.fst
      = if k ∈ ms.map Prod.fst then ms.map Prod.fst else ms.map Prod.fst ++ [k] := by
  induction ms with
  | nil => rfl
  | cons m ms ih =>
    obtain ⟨l, v⟩ := m
    rw [assign]
    by_cases hl : l = k
    · subst hl
      rw [if_pos rfl, List.map_cons, List.map_cons, if_pos List.mem_cons_self]
    · rw [if_neg hl, List.map_cons, ih, List.map_cons]
      by_cases hk : k ∈ ms.map Prod.fst
      · rw [if_pos hk, if_pos (List.mem_cons_of_mem _ hk)]
      · rw [if_neg hk, if_neg, List.cons_append]
        rw [List.mem_cons, not_or]
        exact ⟨Ne.symm hl, hk⟩

theorem lastMentions_concat (ms : List (String × α)) (m : String × α) :
    lastMentions (ms ++ [m]) = assign m.1 m.2 (lastMentions ms) := by
  rw [lastMentions, List.foldl_append]
  rfl

/-- The names are those of the text, each in the place of its first mention. -/
theorem names_lastMentions (ms : List (String × α)) :
    (lastMentions ms).map Prod.fst = (ms.map Prod.fst).eraseDups := by
  induction ms using List.reverseRecOn with
  | nil => rfl
  | append_singleton ms m ih =>
    rw [lastMentions_concat, names_assign, ih, List.map_append, List.eraseDups_append]
    by_cases hm : m.1 ∈ ms.map Prod.fst
    · rw [if_pos (List.mem_eraseDups.mpr hm)]
      simp [List.removeAll, hm]
    · rw [if_neg fun h => hm (List.mem_eraseDups.mp h)]
      simp [List.removeAll, hm, List.eraseDups_cons]

theorem nodup_names_lastMentions (ms : List (String × α)) : ((lastMentions ms).map Prod.fst).Nodup := by
  induction ms using List.reverseRecOn with
  | nil => exact List.nodup_nil
  | append_singleton ms m ih =>
    rw [lastMentions_concat, names_assign]
    by_cases hm : m.1 ∈ (lastMentions ms).map Prod.fst
    · rw [if_pos hm]
      exact ih
    · rw [if_neg hm, ← List.concat_eq_append]
      exact ih.concat hm

theorem lookup_of_mem {k : String} {a : α} {ms : List (String × α)} (hn : (ms.map Prod.fst).Nodup)
    (h : (k, a) ∈ ms) : List.lookup k ms = some a := by
  obtain ⟨before, after, rfl⟩ := List.append_of_mem h
  refine lookup_eq_some_iff.mpr ⟨before, after, rfl, fun b hb => ?_⟩
  rw [List.map_append] at hn
  exact (List.disjoint_of_nodup_append hn) (List.mem_map_of_mem (f := Prod.fst) hb) List.mem_cons_self

/-- Members are determined by their names if what belongs to a name is. -/
theorem eq_filterMap_names {g : String → Option α} {ms : List (String × α)}
    (h : ∀ k a, (k, a) ∈ ms → g k = some a) :
    ms = (ms.map Prod.fst).filterMap fun k => (g k).map (Prod.mk k) := by
  induction ms with
  | nil => rfl
  | cons m ms ih =>
    obtain ⟨l, v⟩ := m
    rw [List.map_cons, List.filterMap_cons, h l v List.mem_cons_self,
      ← ih fun k a hk => h k a (List.mem_cons_of_mem _ hk)]
    rfl

/-- **The members that an object denotes are determined**: they are found by taking the members of the text
one after another. -/
theorem collected_iff {ms members : List (String × α)} :
    Collected ms members ↔ members = lastMentions ms := by
  have hlast : ∀ k a, (k, a) ∈ lastMentions ms → List.lookup k ms.reverse = some a := by
    intro k a h
    rw [← lookup_lastMentions]
    exact lookup_of_mem (nodup_names_lastMentions ms) h
  constructor
  · intro h
    rw [eq_filterMap_names fun k a hk => lookup_reverse_eq_some_iff.mpr (h.last k a hk), h.names,
      ← names_lastMentions, ← eq_filterMap_names hlast]
  · rintro rfl
    exact ⟨names_lastMentions ms, fun k a h => lookup_reverse_eq_some_iff.mp (hlast k a h)⟩

end Members

end ApiLint.Json.Grammar
