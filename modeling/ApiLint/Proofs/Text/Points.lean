import ApiLint.Text.Position
import ApiLint.Text.Rest
import Mathlib.Data.List.Induction

/-!
# Points of a text

`Position.ofBefore` is the point of a text that has a given piece in front of it, said without reading: its
line is one more than the line feeds of the piece, its column one more than the characters behind the last
of them, and its offset the number of bytes.  A byte order mark in front of the text takes no column.

A reader moves a point character by character.  `Position.afterAll_start` and `Position.afterAll_mark` say
that it comes to the same point, whether it starts in front of the text or behind a byte order mark.
`extract_toUTF8` is the step from characters to bytes: what lies between the offsets of two points are the
bytes of the piece between them.
-/

namespace ApiLint

/-! ### Pieces of a text -/

def withoutMark : List Char → List Char
  | [] => []
  | c :: cs => if c = '\ufeff' then cs else c :: cs

/-- What stands behind the last line feed, or everything if there is none. -/
def lastLine (cs : List Char) : List Char :=
  (cs.reverse.takeWhile fun c => c ≠ '\n').reverse

theorem lastLine_concat_lineFeed (cs : List Char) : lastLine (cs ++ ['\n']) = [] := by
  rw [lastLine, List.reverse_append, List.reverse_singleton, List.singleton_append,
    List.takeWhile_cons_of_neg (by decide), List.reverse_nil]

theorem lastLine_concat (cs : List Char) {c : Char} (hc : c ≠ '\n') :
    lastLine (cs ++ [c]) = lastLine cs ++ [c] := by
  rw [lastLine, List.reverse_append, List.reverse_singleton, List.singleton_append,
    List.takeWhile_cons_of_pos (by simpa using hc), List.reverse_cons, lastLine]

theorem utf8ByteSize_ofList (cs : List Char) : (String.ofList cs).utf8ByteSize = byteSize cs := by
  induction cs with
  | nil => rfl
  | cons c cs ih =>
    rw [← List.singleton_append, String.ofList_append, String.utf8ByteSize_append, ih,
      ← String.singleton_eq_ofList, String.utf8ByteSize_singleton, List.singleton_append, byteSize_cons]

/-- What lies between two offsets are the bytes of the piece between them. -/
theorem extract_toUTF8 {text : String} {before piece after : List Char}
    (h : text.toList = before ++ piece ++ after) :
    text.toUTF8.extract (byteSize before) (byteSize (before ++ piece)) = (String.ofList piece).toUTF8 := by
  have hbytes : text.toUTF8 = (String.ofList before).toByteArray
      ++ ((String.ofList piece).toByteArray ++ (String.ofList after).toByteArray) := by
    rw [String.toUTF8_eq_toByteArray, ← String.ofList_toList (s := text), h, String.ofList_append,
      String.ofList_append, String.toByteArray_append, String.toByteArray_append, ByteArray.append_assoc]
  have hbefore : byteSize before = (String.ofList before).toByteArray.size + 0 := by
    rw [String.size_toByteArray, utf8ByteSize_ofList, Nat.add_zero]
  have hpiece : byteSize (before ++ piece)
      = (String.ofList before).toByteArray.size + (String.ofList piece).toByteArray.size := by
    rw [byteSize_append, String.size_toByteArray, String.size_toByteArray, utf8ByteSize_ofList,
      utf8ByteSize_ofList]
  rw [hbytes, hbefore, hpiece, ByteArray.extract_append_size_add, ByteArray.extract_append_eq_left rfl,
    String.toUTF8_eq_toByteArray]

/-! ### Points -/

namespace Position

def ofBefore (before : List Char) : Position :=
  ⟨1 + before.count '\n', 1 + (lastLine (withoutMark before)).length, byteSize before⟩

def afterAll (p : Position) (cs : List Char) : Position :=
  cs.foldl after p

@[simp] theorem afterAll_nil (p : Position) : p.afterAll [] = p := rfl

theorem afterAll_cons (p : Position) (c : Char) (cs : List Char) :
    p.afterAll (c :: cs) = (p.after c).afterAll cs := rfl

theorem afterAll_append (p : Position) (cs ds : List Char) :
    p.afterAll (cs ++ ds) = (p.afterAll cs).afterAll ds :=
  List.foldl_append

theorem after_of_ne {c : Char} (hc : c ≠ '\n') (p : Position) : p.after c = p.past c :=
  if_neg hc

/-- Where there is no line feed, it does not matter whether one is looked for. -/
theorem pastAll_eq_afterAll {cs : List Char} (h : '\n' ∉ cs) (p : Position) :
    p.pastAll cs = p.afterAll cs := by
  induction cs generalizing p with
  | nil => rfl
  | cons c cs ih =>
    rw [List.mem_cons, not_or] at h
    rw [pastAll_cons, afterAll_cons, after_of_ne (Ne.symm h.1), ih h.2]

/-- Where a reader comes to from the start of a line. -/
theorem afterAll_eq {p : Position} (hp : p.column = 1) (cs : List Char) :
    p.afterAll cs = ⟨p.line + cs.count '\n', 1 + (lastLine cs).length, p.offset + byteSize cs⟩ := by
  induction cs using List.reverseRecOn with
  | nil =>
    obtain ⟨line, column, offset⟩ := p
    cases hp
    rfl
  | append_singleton cs c ih =>
    rw [afterAll_append, afterAll_cons, afterAll_nil, ih, List.count_append, byteSize_append,
      byteSize_cons, byteSize_nil]
    by_cases hc : c = '\n'
    · subst hc
      rw [lastLine_concat_lineFeed, after, if_pos rfl]
      rfl
    · have hcount : List.count '\n' [c] = 0 := List.count_eq_zero.mpr (by simpa using Ne.symm hc)
      rw [lastLine_concat cs hc, after_of_ne hc, past, hcount, List.length_append, List.length_singleton]
      simp only [Nat.add_assoc, Nat.add_zero]

/-- A reader that starts in front of a text without a byte order mark. -/
theorem afterAll_start {cs : List Char} (h : withoutMark cs = cs) : start.afterAll cs = ofBefore cs := by
  rw [afterAll_eq rfl, ofBefore, h]
  congr 1
  exact Nat.zero_add _

/-- A reader that starts behind the byte order mark of a text. -/
theorem afterAll_mark (cs : List Char) :
    (Position.mk 1 1 (Char.utf8Size '\ufeff')).afterAll cs = ofBefore ('\ufeff' :: cs) := by
  rw [afterAll_eq rfl, ofBefore, withoutMark, if_pos rfl, List.count_cons_of_ne (by decide)]
  rfl

end Position

def Span.bytes (s : Span) (text : String) : ByteArray :=
  text.toUTF8.extract s.first.offset s.last.offset

end ApiLint
