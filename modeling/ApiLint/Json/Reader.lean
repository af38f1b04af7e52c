import ApiLint.Json.StringLiteral
import ApiLint.Json.Tree
import ApiLint.Text.Blank

/-!
# Reading JSON

`Json.read` turns a text into a `Tree`, or says where and why the text is not JSON.  A text is one value
with white space allowed around every token and a byte order mark allowed in front.  No value may lie
inside more than `maxDepth` containers.  `Json.readWritten` keeps every member of the text; the `Tree` has
each name once, with the value of its last mention in the place of its first.

Every step returns what is left of the text together with the proof that it is shorter, so the loop over
the entries of a container ends; the nesting is bounded by the levels that are left.
-/

namespace ApiLint.Json

/-- How many containers may lie around a value. -/
def maxDepth : Nat := 256

inductive Problem where
  | trailingCharacters
  | endOfInput
  | tooDeep
  | unexpectedCharacter (c : Char)
  | invalidLiteral
  | keyExpected
  | colonExpected
  | objectUnfinished
  | arrayUnfinished
  | unterminatedString
  | controlCharacter
  | invalidString (fault : EscapeFault) (line column : Nat)
  | invalidNumber (literal : String)
  deriving DecidableEq, Repr

def Problem.message : Problem → String
  | trailingCharacters => "unexpected trailing characters"
  | endOfInput => "unexpected end of input"
  | tooDeep => s!"nesting deeper than {maxDepth} levels"
  | unexpectedCharacter c => s!"unexpected character '{c}'"
  | invalidLiteral => "invalid literal"
  | keyExpected => "expected string key"
  | colonExpected => "expected ':' after object key"
  | objectUnfinished => "expected ',' or '\x7d' in object"
  | arrayUnfinished => "expected ',' or ']' in array"
  | unterminatedString => "unterminated string"
  | controlCharacter => "control character in string"
  | invalidString fault line column =>
    s!"invalid string literal: {fault.message} at line {line} column {column}"
  | invalidNumber literal => s!"invalid number '{literal}'"

/-- Why a text is not JSON, and where.  The length is that of the offending byte, none at the end. -/
structure ReadError where
  problem : Problem
  position : Position
  length : Nat
  deriving DecidableEq, Repr

def ReadError.message (e : ReadError) : String :=
  s!"{e.problem.message} at line {e.position.line}, column {e.position.column}"

/-- A point in a text and the text after it. -/
structure Cursor where
  position : Position
  rest : List Char

namespace Cursor

def ofText (text : List Char) : Cursor :=
  ⟨.start, text⟩

def fail {α : Type} (c : Cursor) (p : Problem) : Except ReadError α :=
  .error ⟨p, c.position, if c.rest.isEmpty then 0 else 1⟩

def skipSpaces (p : Position) : List Char → Cursor
  | [] => ⟨p, []⟩
  | c :: cs => if isSpace c then skipSpaces (p.after c) cs else ⟨p, c :: cs⟩

def skip (c : Cursor) : Cursor :=
  skipSpaces c.position c.rest

/-- Past a byte order mark, which takes no column. -/
def skipMark (c : Cursor) : Cursor :=
  match c.rest with
  | [] => c
  | m :: cs =>
    if m = '\ufeff' then
      ⟨⟨c.position.line, c.position.column, c.position.offset + m.utf8Size⟩, cs⟩
    else c

theorem length_skipSpaces_le (p : Position) (cs : List Char) :
    (skipSpaces p cs).rest.length ≤ cs.length := by
  induction cs generalizing p with
  | nil => exact Nat.le_refl _
  | cons c cs ih =>
    simp only [skipSpaces]
    split
    · exact Nat.le_succ_of_le (ih _)
    · exact Nat.le_refl _

theorem length_skip_le (c : Cursor) : c.skip.rest.length ≤ c.rest.length :=
  length_skipSpaces_le c.position c.rest

end Cursor

abbrev Further (c : Cursor) := { d : Cursor // d.rest.length < c.rest.length }

/-- What was read, and the cursor after it. -/
abbrev Step (c : Cursor) (α : Type) := Except ReadError (α × Further c)

/-! ### Leaves -/

def string (c : Cursor) : Step c String :=
  match h : c.rest with
  | [] => c.fail .unterminatedString
  | quote :: cs =>
    match hs : StringLiteral.scan (c.position.past quote) false cs with
    | .error .unterminated => c.fail .unterminatedString
    | .error (.controlCharacter p rest) => Cursor.fail ⟨p, rest⟩ .controlCharacter
    | .ok (body, p, rest) =>
      match StringLiteral.decode 1 body with
      | .error fault =>
        let (line, column) := StringLiteral.faultPlace body fault
        c.fail (.invalidString fault.1 line column)
      | .ok text =>
        .ok (String.ofList text, ⟨⟨p, rest⟩, by
          have := StringLiteral.scan_shorter hs
          simp only [h, List.length_cons]
          exact Nat.lt_succ_of_lt this⟩)

/-- The number literal that starts here: the whole run of its characters. -/
def number (c : Cursor) : Step c Number :=
  match h : c.rest with
  | [] => c.fail (.invalidNumber "")
  | d :: cs =>
    let literal := d :: cs.takeWhile isNumeralChar
    match Number.ofChars? literal with
    | none => c.fail (.invalidNumber (String.ofList literal))
    | some n =>
      .ok (n, ⟨⟨c.position.pastAll literal, cs.dropWhile isNumeralChar⟩, by
        have := (List.dropWhile_sublist isNumeralChar (l := cs)).length_le
        simp only [h, List.length_cons]
        omega⟩)

def word (w : List Char) (c : Cursor) : Step c Unit :=
  if h : w <+: c.rest ∧ 0 < w.length then
    .ok ((), ⟨⟨c.position.pastAll w, c.rest.drop w.length⟩, by
      have := h.1.length_le
      simp only [List.length_drop]
      omega⟩)
  else c.fail .invalidLiteral

/-! ### Containers -/

inductive Delimiter where
  | comma
  | close

def delimiter (close : Char) (problem : Problem) (c : Cursor) : Step c Delimiter :=
  match h : c.skip.rest with
  | [] => c.skip.fail problem
  | d :: cs =>
    let next : Further c := ⟨⟨c.skip.position.past d, cs⟩, by
      have := c.length_skip_le
      simp only [h, List.length_cons] at this
      exact this⟩
    if d = ',' then .ok (.comma, next)
    else if d = close then .ok (.close, next)
    else c.skip.fail problem

def entries {α : Type} (close : Char) (problem : Problem) (entry : (c : Cursor) → Step c α)
    (c : Cursor) : Step c (List α) :=
  match entry c with
  | .error e => .error e
  | .ok (a, ⟨c₁, h₁⟩) =>
    match delimiter close problem c₁ with
    | .error e => .error e
    | .ok (.close, ⟨c₂, h₂⟩) => .ok ([a], ⟨c₂, by omega⟩)
    | .ok (.comma, ⟨c₂, h₂⟩) =>
      match entries close problem entry c₂ with
      | .error e => .error e
      | .ok (rest, ⟨c₃, h₃⟩) => .ok (a :: rest, ⟨c₃, by omega⟩)
termination_by c.rest.length

/-- What follows an opening bracket: nothing but the closing one, or entries. -/
def afterBracket {α : Type} (close : Char) (problem : Problem) (entry : (c : Cursor) → Step c α)
    (c : Cursor) : Step c (List α) :=
  match h : c.skip.rest with
  | [] => entries close problem entry c
  | d :: cs =>
    if d = close then
      .ok ([], ⟨⟨c.skip.position.past d, cs⟩, by
        have := c.length_skip_le
        simp only [h, List.length_cons] at this
        exact this⟩)
    else entries close problem entry c

def container {α : Type} (close : Char) (problem : Problem) (entry : (c : Cursor) → Step c α)
    (c : Cursor) : Step c (List α) :=
  match h : c.rest with
  | [] => c.fail .endOfInput
  | bracket :: cs =>
    match afterBracket close problem entry ⟨c.position.past bracket, cs⟩ with
    | .error e => .error e
    | .ok (entries, ⟨d, further⟩) => .ok (entries, ⟨d, by
        simp only [h, List.length_cons]
        exact Nat.lt_succ_of_lt further⟩)

/-! ### Members -/

def key (c : Cursor) : Step c String :=
  if c.skip.rest.head? = some '"' then
    match string c.skip with
    | .error e => .error e
    | .ok (k, ⟨c₁, h₁⟩) =>
      match h : c₁.skip.rest with
      | [] => c₁.skip.fail .colonExpected
      | d :: cs =>
        if d = ':' then
          .ok (k, ⟨⟨c₁.skip.position.past d, cs⟩, by
            have h₀ := c.length_skip_le
            have h₂ := c₁.length_skip_le
            simp only [h, List.length_cons] at h₂
            show cs.length < c.rest.length
            omega⟩)
        else c₁.skip.fail .colonExpected
  else c.skip.fail .keyExpected

def member (element : (c : Cursor) → Step c Written) (c : Cursor) : Step c (String × Written) :=
  match key c with
  | .error e => .error e
  | .ok (k, ⟨c₁, h₁⟩) =>
    match element c₁ with
    | .error e => .error e
    | .ok (w, ⟨c₂, h₂⟩) => .ok ((k, w), ⟨c₂, Nat.lt_trans h₂ h₁⟩)

/-! ### Values -/

/-- What was read after white space, as a value that knows where. -/
def spanned {α : Type} (c : Cursor) (make : Span → α → Written) (read : Step c.skip α) : Step c Written :=
  match read with
  | .error e => .error e
  | .ok (a, ⟨d, further⟩) =>
    .ok (make ⟨c.skip.position, d.position⟩ a, ⟨d, Nat.lt_of_lt_of_le further c.length_skip_le⟩)

/-- The value after white space, inside which there may be `levels` nested values, itself counted. -/
def value (levels : Nat) (c : Cursor) : Step c Written :=
  match levels with
  | 0 => c.skip.fail .tooDeep
  | levels + 1 =>
    match c.skip.rest with
    | [] => c.skip.fail .endOfInput
    | d :: _ =>
      if d = '\x7b' then
        spanned c .object (container '\x7d' .objectUnfinished (member (value levels)) c.skip)
      else if d = '[' then spanned c .array (container ']' .arrayUnfinished (value levels) c.skip)
      else if d = '"' then spanned c .string (string c.skip)
      else if d = 't' then spanned c (fun s _ => .bool s true) (word "true".toList c.skip)
      else if d = 'f' then spanned c (fun s _ => .bool s false) (word "false".toList c.skip)
      else if d = 'n' then spanned c (fun s _ => .null s) (word "null".toList c.skip)
      else if d = '-' || d.isDigit then spanned c .number (number c.skip)
      else c.skip.fail (.unexpectedCharacter d)

def readWritten (text : List Char) : Except ReadError Written :=
  match value (maxDepth + 1) (Cursor.ofText text).skipMark with
  | .error e => .error e
  | .ok (w, ⟨d, _⟩) => if d.skip.rest.isEmpty then .ok w else d.skip.fail .trailingCharacters

def read (text : String) : Except ReadError Tree :=
  (readWritten text.toList).map Tree.ofWritten

theorem read_eq_ok_iff {text : String} {tree : Tree} :
    read text = .ok tree ↔ ∃ w, readWritten text.toList = .ok w ∧ Tree.ofWritten w = tree := by
  rw [read]
  cases readWritten text.toList with
  | error e => simp [Except.map]
  | ok w => simp [Except.map]

end ApiLint.Json
