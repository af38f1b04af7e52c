import ApiLint.Proofs.Text.Points

/-!
# Bytes of a text

`byte?` is the byte at an offset, and `cut?` the piece between two offsets, which have to be in order, within the text
and on the boundaries of characters (`cut?_eq_some_iff`).

A byte below 128 is the whole of a character, and all bytes of other characters are above.  So whoever looks at the byte
at which a character begins sees the character if it is below 128, and otherwise that it is not (`Opens`).  And whoever
looks into the middle of a character sees no byte below 128 (`exists_byte?_inside`).
-/

namespace ApiLint

/-! ### Bytes of a character -/

/-- A byte below 128 is the whole of a character. -/
theorem toNat_eq_of_mem_utf8EncodeChar {c : Char} {b : UInt8} (h : b ∈ String.utf8EncodeChar c) (hb : b.toNat < 128) :
    c.toNat = b.toNat := by
  have hlarge : ∀ m, 128 ≤ m → m < 256 → b ≠ UInt8.ofNat m := by
    rintro m hm hm' rfl
    rw [UInt8.toNat_ofNat', Nat.mod_eq_of_lt hm'] at hb
    omega
  rw [String.utf8EncodeChar] at h
  split at h
  · next hv =>
    rw [List.mem_singleton.mp h, UInt8.toNat_ofNat', Nat.mod_eq_of_lt (by omega)]
    rfl
  · -- every byte of a longer character has its upper bit set
    split at h
    · simp only [List.mem_cons, List.not_mem_nil, or_false] at h
      rcases h with h | h <;> exact absurd h (hlarge _ (by omega) (by omega))
    · split at h
      · simp only [List.mem_cons, List.not_mem_nil, or_false] at h
        rcases h with h | h | h <;> exact absurd h (hlarge _ (by omega) (by omega))
      · simp only [List.mem_cons, List.not_mem_nil, or_false] at h
        rcases h with h | h | h | h <;> exact absurd h (hlarge _ (by omega) (by omega))

theorem not_mem_utf8EncodeChar {c d : Char} (hd : d.toNat < 128) (hne : c ≠ d) :
    UInt8.ofNat d.toNat ∉ String.utf8EncodeChar c := by
  intro h
  have hbyte : (UInt8.ofNat d.toNat).toNat = d.toNat := by
    rw [UInt8.toNat_ofNat', Nat.mod_eq_of_lt (by omega)]
  have hc := toNat_eq_of_mem_utf8EncodeChar h (by rw [hbyte]; exact hd)
  exact hne (Char.toNat_inj.mp (hc.trans hbyte))

theorem utf8Size_eq_one {c : Char} (hc : c.toNat < 128) : c.utf8Size = 1 :=
  Char.utf8Size_eq_one_iff.mpr (UInt32.le_iff_toNat_le.mpr (Nat.le_of_lt_succ hc))

/-- What the byte `b` at which the character `c` begins says of it. -/
def Opens (b : UInt8) (c : Char) : Prop :=
  b.toNat = c.toNat ∧ c.toNat < 128 ∨ 128 ≤ b.toNat ∧ 128 ≤ c.toNat

theorem opens_of_mem {b : UInt8} {c : Char} (h : b ∈ String.utf8EncodeChar c) : Opens b c := by
  by_cases hb : b.toNat < 128
  · have hc := toNat_eq_of_mem_utf8EncodeChar h hb
    exact .inl ⟨hc.symm, by omega⟩
  · refine .inr ⟨by omega, Nat.le_of_not_lt fun hc => ?_⟩
    -- the character would be its own only byte
    rw [String.utf8EncodeChar_eq_singleton (utf8Size_eq_one hc), List.mem_singleton] at h
    have hbyte : b.toNat = c.toNat % 256 := by
      rw [h]
      exact UInt32.toNat_toUInt8 c.val
    omega

theorem Opens.eq_iff {b : UInt8} {c a : Char} (h : Opens b c) (ha : a.toNat < 128) : b = a.toUInt8 ↔ c = a := by
  have hbyte : a.toUInt8.toNat = a.toNat % 256 := UInt32.toNat_toUInt8 a.val
  rw [← UInt8.toNat_inj, ← Char.toNat_inj, hbyte]
  rcases h with h | h <;> omega

/-! ### Bytes of a text -/

def byte? (text : String) (i : Nat) : Option UInt8 :=
  text.toUTF8[i]?

theorem utf8ByteSize_eq_byteSize (text : String) : text.utf8ByteSize = byteSize text.toList := by
  rw [← utf8ByteSize_ofList, String.ofList_toList]

theorem lt_of_byte? {text : String} {i : Nat} {b : UInt8} (h : byte? text i = some b) : i < text.utf8ByteSize := by
  obtain ⟨hi, -⟩ := getElem?_eq_some_iff.mp h
  rwa [String.toUTF8_eq_toByteArray, String.size_toByteArray] at hi

theorem byte?_eq_none {text : String} {i : Nat} (h : text.utf8ByteSize ≤ i) : byte? text i = none := by
  rw [byte?, getElem?_eq_none_iff, String.toUTF8_eq_toByteArray, String.size_toByteArray]
  exact Nat.not_lt.mpr h

theorem byte?_eq (text : String) (i : Nat) :
    byte? text i = (text.toList.flatMap String.utf8EncodeChar)[i]? := by
  have hbytes : text.toUTF8.data.toList = text.toList.flatMap String.utf8EncodeChar := by
    rw [String.toUTF8_eq_toByteArray, ← String.utf8Encode_toList, List.utf8Encode, List.toList_data_toByteArray]
  rw [← hbytes, Array.getElem?_toList]
  rfl

section Split

variable {text : String} {before after piece : List Char} {c : Char}

theorem length_flatMap_utf8EncodeChar (cs : List Char) :
    (cs.flatMap String.utf8EncodeChar).length = byteSize cs := by
  induction cs with
  | nil => rfl
  | cons c cs ih => rw [List.flatMap_cons, List.length_append, String.length_utf8EncodeChar, ih, byteSize_cons]

/-- The bytes from where a character begins are the bytes of the character. -/
theorem byte?_of_split (h : text.toList = before ++ c :: after) {k : Nat} (hk : k < c.utf8Size) :
    byte? text (byteSize before + k) = (String.utf8EncodeChar c)[k]? := by
  rw [byte?_eq, h, List.flatMap_append, List.getElem?_append_right, length_flatMap_utf8EncodeChar,
    Nat.add_sub_cancel_left, List.flatMap_cons, List.getElem?_append_left]
  · rwa [String.length_utf8EncodeChar]
  · rw [length_flatMap_utf8EncodeChar]
    exact Nat.le_add_right _ _

theorem exists_byte?_opens (h : text.toList = before ++ c :: after) :
    ∃ b, byte? text (byteSize before) = some b ∧ Opens b c := by
  have hlength : 0 < (String.utf8EncodeChar c).length := by
    rw [String.length_utf8EncodeChar]
    exact c.utf8Size_pos
  refine ⟨(String.utf8EncodeChar c)[0], ?_, opens_of_mem (List.getElem_mem hlength)⟩
  rw [← Nat.add_zero (byteSize before), byte?_of_split h c.utf8Size_pos, List.getElem?_eq_getElem hlength]

/-- Inside of a character there are only bytes of 128 and above. -/
theorem exists_byte?_inside (h : text.toList = before ++ c :: after) {k : Nat} (hk : k < c.utf8Size)
    (hc : 128 ≤ c.toNat) : ∃ b, byte? text (byteSize before + k) = some b ∧ 128 ≤ b.toNat := by
  have hlength : k < (String.utf8EncodeChar c).length := by rwa [String.length_utf8EncodeChar]
  refine ⟨(String.utf8EncodeChar c)[k], ?_, ?_⟩
  · rw [byte?_of_split h hk, List.getElem?_eq_getElem hlength]
  · rcases opens_of_mem (List.getElem_mem hlength) with hopens | hopens <;> omega

end Split

/-! ### Pieces of a text -/

/-- The piece of a text between two offsets, if it can be cut out there. -/
def cut? (text : String) (first last : Nat) : Option String :=
  if h : first ≤ last ∧ String.Pos.Raw.IsValid text ⟨first⟩ ∧ String.Pos.Raw.IsValid text ⟨last⟩ then
    some (String.extract (text.pos ⟨first⟩ h.2.1) (text.pos ⟨last⟩ h.2.2))
  else none

theorem isValid_of_split {text : String} {before after : List Char} (h : text.toList = before ++ after) :
    String.Pos.Raw.IsValid text ⟨byteSize before⟩ := by
  refine String.Pos.Raw.isValid_iff_exists_append.mpr ⟨String.ofList before, String.ofList after, ?_, ?_⟩
  · rw [← String.ofList_append, ← h, String.ofList_toList]
  · rw [← utf8ByteSize_ofList]
    rfl

theorem cut?_of_split {text : String} {before piece after : List Char}
    (h : text.toList = before ++ piece ++ after) :
    cut? text (byteSize before) (byteSize (before ++ piece)) = some (String.ofList piece) := by
  have hlast := isValid_of_split h
  rw [List.append_assoc] at h
  have hfirst := isValid_of_split h
  have hle : byteSize before ≤ byteSize (before ++ piece) := by
    rw [byteSize_append]
    exact Nat.le_add_right _ _
  rw [cut?, dif_pos ⟨hle, hfirst, hlast⟩, Option.some.injEq, ← String.toByteArray_inj, String.toByteArray_extract,
    String.offset_pos, String.offset_pos, ← String.toUTF8_eq_toByteArray, ← String.toUTF8_eq_toByteArray]
  exact extract_toUTF8 (by rw [h, List.append_assoc])

theorem exists_split_of_isValid {text : String} {i : Nat} (h : String.Pos.Raw.IsValid text ⟨i⟩) :
    ∃ before after, text.toList = before ++ after ∧ i = byteSize before := by
  obtain ⟨front, back, rfl, hi⟩ := String.Pos.Raw.isValid_iff_exists_append.mp h
  refine ⟨front.toList, back.toList, String.toList_append, ?_⟩
  rw [← utf8ByteSize_eq_byteSize]
  exact congrArg String.Pos.Raw.byteIdx hi

theorem eq_nil_of_byteSize_eq_zero {cs : List Char} (h : byteSize cs = 0) : cs = [] := by
  cases cs with
  | nil => rfl
  | cons c cs =>
    have hc := c.utf8Size_pos
    rw [byteSize_cons] at h
    omega

/-- **A piece is cut out from the boundary of a character to one that is not in front of it.** -/
theorem cut?_eq_some_iff {text piece : String} {first last : Nat} :
    cut? text first last = some piece ↔ ∃ before after, text.toList = before ++ piece.toList ++ after ∧
      first = byteSize before ∧ last = byteSize (before ++ piece.toList) := by
  constructor
  · intro h
    obtain ⟨hle, hfirst, hlast⟩ : first ≤ last ∧ String.Pos.Raw.IsValid text ⟨first⟩ ∧
        String.Pos.Raw.IsValid text ⟨last⟩ := by
      by_contra hnot
      rw [cut?, dif_neg hnot] at h
      cases h
    obtain ⟨before, behind, hbefore, rfl⟩ := exists_split_of_isValid hfirst
    obtain ⟨front, after, hfront, rfl⟩ := exists_split_of_isValid hlast
    have hpiece : ∃ cs, front = before ++ cs := by
      rcases List.append_eq_append_iff.mp (hbefore.symm.trans hfront) with ⟨cs, hcs, -⟩ | ⟨cs, hcs, -⟩
      · exact ⟨cs, hcs⟩
      · rw [hcs, byteSize_append] at hle
        have hnil : cs = [] := eq_nil_of_byteSize_eq_zero (by omega)
        exact ⟨[], by rw [hcs, hnil, List.append_nil, List.append_nil]⟩
    obtain ⟨cs, rfl⟩ := hpiece
    rw [cut?_of_split hfront, Option.some.injEq] at h
    rw [← h, String.toList_ofList]
    exact ⟨before, after, hfront, rfl, rfl⟩
  · rintro ⟨before, after, htext, rfl, rfl⟩
    rw [cut?_of_split htext, String.ofList_toList]

end ApiLint
