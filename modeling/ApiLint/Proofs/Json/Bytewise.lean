import ApiLint.Json.Reader
import ApiLint.Proofs.Text.Bytes

/-!
# Reading JSON byte by byte

`Bytewise.read` reads JSON as `Json.read` does, from the bytes of the text.  It knows a place by its offset, and it
looks at single bytes only: the scan for the closing quote of a string steps over two bytes at a backslash, whatever
character begins behind it, so on its way it stands inside of characters and behind the end of the text.  Pieces are cut
out of the text between two offsets, and a column is counted from the last place whose column is known.

A reader of bytes may stop where a reader of characters does not: when the text cannot be cut at the offsets, and when
an offset is subtracted from a smaller one.  These are outcomes of their own (`Bytewise.Stop`), and no reader goes on
after them.

The loop over the entries of a container ends since no reader steps back, and a delimiter is a byte of the text.
-/

namespace ApiLint.Json.Bytewise

inductive Stop where
  /-- The text cannot be cut there. -/
  | badCut (first last : Nat)
  /-- The second offset is in front of the first. -/
  | backwards (first last : Nat)
  | fault (e : ReadError)

/-- Where a reader stands: its offset, the line and where that begins, and the offset and the column, counted from zero,
of a place whose column is known. -/
structure State where
  offset : Nat
  line : Nat
  lineStart : Nat
  known : Nat × Nat

abbrev Onward (s : State) := { t : State // s.offset ≤ t.offset }

abbrev Step (s : State) (α : Type) := Except Stop (α × Onward s)

/-- What is read from `t` on, for a reader that stood at `s`. -/
def later {α : Type} {s t : State} (h : s.offset ≤ t.offset) (step : Step t α) : Step s α :=
  match step with
  | .error e => .error e
  | .ok (a, ⟨u, hu⟩) => .ok (a, ⟨u, Nat.le_trans h hu⟩)

def State.move (s : State) (n : Nat) : State :=
  { s with offset := s.offset + n }

theorem State.le_move (s : State) (n : Nat) : s.offset ≤ (s.move n).offset :=
  Nat.le_add_right _ _

section

variable (text : String)

/-! ### Places -/

/-- The piece of the text between two offsets. -/
def cut (first last : Nat) : Except Stop String :=
  match cut? text first last with
  | none => .error (.badCut first last)
  | some piece => .ok piece

def columnAt (s : State) (i : Nat) : Except Stop Nat :=
  let (first, column) := if s.lineStart ≤ s.known.1 ∧ s.known.1 ≤ i then s.known else (s.lineStart, 0)
  if i < first then .error (.backwards first i)
  else
    match cut? text first i with
    | none => .ok (column + (i - first))
    | some piece => .ok (column + piece.length)

/-- The place of the reader, whose column is known from now on. -/
def here (s : State) : Step s Position :=
  match columnAt text s s.offset with
  | .error e => .error e
  | .ok column => .ok (⟨s.line, column + 1, s.offset⟩, ⟨{ s with known := (s.offset, column) }, Nat.le_refl _⟩)

def failAt {α : Type} (s : State) (i : Nat) (p : Problem) : Except Stop α :=
  match columnAt text s i with
  | .error e => .error e
  | .ok column => .error (.fault ⟨p, ⟨s.line, column + 1, i⟩, if i < text.utf8ByteSize then 1 else 0⟩)

def fail {α : Type} (s : State) (p : Problem) : Except Stop α :=
  failAt text s s.offset p

def skip (s : State) : State :=
  match _h : byte? text s.offset with
  | none => s
  | some b =>
    if b = '\n'.toUInt8 then skip ⟨s.offset + 1, s.line + 1, s.offset + 1, s.known⟩
    else if b = ' '.toUInt8 ∨ b = '\t'.toUInt8 ∨ b = '\r'.toUInt8 then skip (s.move 1)
    else s
termination_by text.utf8ByteSize - s.offset
decreasing_by
  · have := lt_of_byte? _h
    show text.utf8ByteSize - (s.offset + 1) < text.utf8ByteSize - s.offset
    omega
  · have := lt_of_byte? _h
    show text.utf8ByteSize - (s.offset + 1) < text.utf8ByteSize - s.offset
    omega

variable {text} in
theorem skip_of_none {s : State} (h : byte? text s.offset = none) : skip text s = s := by
  rw [skip]
  split
  · rfl
  · rename_i hb
    cases hb.symm.trans h

variable {text} in
theorem skip_of_some {s : State} {b : UInt8} (h : byte? text s.offset = some b) :
    skip text s = if b = '\n'.toUInt8 then skip text ⟨s.offset + 1, s.line + 1, s.offset + 1, s.known⟩
      else if b = ' '.toUInt8 ∨ b = '\t'.toUInt8 ∨ b = '\r'.toUInt8 then skip text (s.move 1)
      else s := by
  rw [skip]
  split
  · rename_i hb
    cases hb.symm.trans h
  · rename_i hb
    obtain rfl := Option.some.inj (hb.symm.trans h)
    rfl

theorem offset_le_skip (s : State) : s.offset ≤ (skip text s).offset := by
  fun_induction skip text s with
  | case1 | case4 => exact Nat.le_refl _
  | case2 s hb ih => exact Nat.le_trans (Nat.le_succ _) ih
  | case3 s b hb hline hblank ih => exact Nat.le_trans (Nat.le_succ _) ih

def start : State :=
  if text.toList.head? = some '\ufeff' then ⟨Char.utf8Size '\ufeff', 1, Char.utf8Size '\ufeff', (0, 0)⟩
  else ⟨0, 1, 0, (0, 0)⟩

/-! ### Leaves -/

inductive Missing where
  | unterminated
  | controlCharacter (i : Nat)

/-- The offset behind the closing quote. -/
def scan (i : Nat) : Except Missing Nat :=
  match _h : byte? text i with
  | none => .error .unterminated
  | some b =>
    if b = '"'.toUInt8 then .ok (i + 1)
    else if b = '\\'.toUInt8 then scan (i + 2)
    else if b.toNat < 0x20 then .error (.controlCharacter i)
    else scan (i + 1)
termination_by text.utf8ByteSize - i
decreasing_by
  all_goals
    have := lt_of_byte? _h
    omega

variable {text} in
theorem scan_of_none {i : Nat} (h : byte? text i = none) : scan text i = .error .unterminated := by
  rw [scan]
  split
  · rfl
  · rename_i hb
    cases hb.symm.trans h

variable {text} in
theorem scan_of_some {i : Nat} {b : UInt8} (h : byte? text i = some b) :
    scan text i = if b = '"'.toUInt8 then .ok (i + 1)
      else if b = '\\'.toUInt8 then scan text (i + 2)
      else if b.toNat < 0x20 then .error (.controlCharacter i)
      else scan text (i + 1) := by
  rw [scan]
  split
  · rename_i hb
    cases hb.symm.trans h
  · rename_i hb
    obtain rfl := Option.some.inj (hb.symm.trans h)
    rfl

theorem le_of_scan {i j : Nat} (h : scan text i = .ok j) : i ≤ j := by
  fun_induction scan text i with
  | case1 | case4 => cases h
  | case2 i hb =>
    obtain rfl := Except.ok.inj h
    exact Nat.le_succ i
  | case3 i hb hslash ih =>
    have hle := ih h
    omega
  | case5 i b hb hquote hslash hcontrol ih =>
    have hle := ih h
    omega

def literal (s : State) (last : Nat) : Except Stop String :=
  match cut text s.offset last with
  | .error e => .error e
  | .ok piece =>
    let body := piece.toList.tail.dropLast
    match StringLiteral.decode 1 body with
    | .error fault =>
      let (line, column) := StringLiteral.faultPlace body fault
      fail text s (.invalidString fault.1 line column)
    | .ok cs => .ok (String.ofList cs)

def string (s : State) : Step s String :=
  match h : scan text (s.offset + 1) with
  | .error .unterminated => fail text s .unterminatedString
  | .error (.controlCharacter i) => failAt text s i .controlCharacter
  | .ok last =>
    (literal text s last).map fun a => (a, ⟨{ s with offset := last }, Nat.le_of_succ_le (le_of_scan text h)⟩)

section

variable {text} {s : State}

theorem string_of_unterminated (h : scan text (s.offset + 1) = .error .unterminated) :
    string text s = fail text s .unterminatedString := by
  rw [string]
  split
  · rfl
  · rename_i hscan
    cases hscan.symm.trans h
  · rename_i hscan
    cases hscan.symm.trans h

theorem string_of_controlCharacter {i : Nat} (h : scan text (s.offset + 1) = .error (.controlCharacter i)) :
    string text s = failAt text s i .controlCharacter := by
  rw [string]
  split
  · rename_i hscan
    cases hscan.symm.trans h
  · rename_i hscan
    cases hscan.symm.trans h
    rfl
  · rename_i hscan
    cases hscan.symm.trans h

theorem string_of_scan {last : Nat} (h : scan text (s.offset + 1) = .ok last) :
    string text s = (literal text s last).map fun a =>
      (a, ⟨{ s with offset := last }, Nat.le_of_succ_le (le_of_scan text h)⟩) := by
  rw [string]
  split
  · rename_i hscan
    cases hscan.symm.trans h
  · rename_i hscan
    cases hscan.symm.trans h
  · rename_i hscan
    obtain rfl := Except.ok.inj (hscan.symm.trans h)
    rfl

end

def isDigit (b : UInt8) : Bool :=
  '0'.toUInt8 ≤ b && b ≤ '9'.toUInt8

def isNumeral (b : UInt8) : Bool :=
  isDigit b || b = '-'.toUInt8 || b = '+'.toUInt8 || b = '.'.toUInt8
    || b = 'e'.toUInt8 || b = 'E'.toUInt8

def numeralEnd (i : Nat) : Nat :=
  match _h : byte? text i with
  | none => i
  | some b => if isNumeral b then numeralEnd (i + 1) else i
termination_by text.utf8ByteSize - i
decreasing_by
  have := lt_of_byte? _h
  omega

variable {text} in
theorem numeralEnd_of_none {i : Nat} (h : byte? text i = none) : numeralEnd text i = i := by
  rw [numeralEnd]
  split
  · rfl
  · rename_i hb
    cases hb.symm.trans h

variable {text} in
theorem numeralEnd_of_some {i : Nat} {b : UInt8} (h : byte? text i = some b) :
    numeralEnd text i = if isNumeral b then numeralEnd text (i + 1) else i := by
  rw [numeralEnd]
  split
  · rename_i hb
    cases hb.symm.trans h
  · rename_i hb
    obtain rfl := Option.some.inj (hb.symm.trans h)
    rfl

theorem le_numeralEnd (i : Nat) : i ≤ numeralEnd text i := by
  fun_induction numeralEnd text i with
  | case1 | case3 => exact Nat.le_refl _
  | case2 i b hb hnumeral ih => exact Nat.le_trans (Nat.le_succ i) ih

def number (s : State) : Step s Number :=
  match cut text s.offset (numeralEnd text s.offset) with
  | .error e => .error e
  | .ok literal =>
    match Number.ofChars? literal.toList with
    | none => fail text s (.invalidNumber literal)
    | some n => .ok (n, ⟨{ s with offset := numeralEnd text s.offset }, le_numeralEnd text s.offset⟩)

def word (w : List Char) (s : State) : Step s Unit :=
  match cut text s.offset text.utf8ByteSize with
  | .error e => .error e
  | .ok piece =>
    if w <+: piece.toList then .ok ((), ⟨s.move (byteSize w), s.le_move _⟩)
    else fail text s .invalidLiteral

/-! ### Containers -/

def delimiter (close : Char) (problem : Problem) (s : State) :
    Except Stop (Delimiter × { t : State // s.offset < t.offset ∧ t.offset ≤ text.utf8ByteSize }) :=
  match h : byte? text (skip text s).offset with
  | none => fail text (skip text s) problem
  | some b =>
    let next : { t : State // s.offset < t.offset ∧ t.offset ≤ text.utf8ByteSize } :=
      ⟨(skip text s).move 1, Nat.lt_succ_of_le (offset_le_skip text s), lt_of_byte? h⟩
    if b = ','.toUInt8 then .ok (.comma, next)
    else if b = close.toUInt8 then .ok (.close, next)
    else fail text (skip text s) problem

def entries {α : Type} (close : Char) (problem : Problem) (entry : (s : State) → Step s α) (s : State) :
    Step s (List α) :=
  match entry s with
  | .error e => .error e
  | .ok (a, ⟨s₁, h₁⟩) =>
    match delimiter text close problem s₁ with
    | .error e => .error e
    | .ok (.close, ⟨s₂, h₂⟩) => .ok ([a], ⟨s₂, by omega⟩)
    | .ok (.comma, ⟨s₂, h₂⟩) =>
      match entries close problem entry s₂ with
      | .error e => .error e
      | .ok (rest, ⟨s₃, h₃⟩) => .ok (a :: rest, ⟨s₃, by omega⟩)
termination_by text.utf8ByteSize - s.offset

def afterBracket {α : Type} (close : Char) (problem : Problem) (entry : (s : State) → Step s α) (s : State) :
    Step s (List α) :=
  later (offset_le_skip text s) <|
    if byte? text (skip text s).offset = some close.toUInt8 then
      .ok ([], ⟨(skip text s).move 1, State.le_move _ _⟩)
    else entries text close problem entry (skip text s)

def container {α : Type} (close : Char) (problem : Problem) (entry : (s : State) → Step s α) (s : State) :
    Step s (List α) :=
  later (s.le_move 1) (afterBracket text close problem entry (s.move 1))

/-! ### Members -/

def key (s : State) : Step s String :=
  later (offset_le_skip text s) <|
    if byte? text (skip text s).offset = some '"'.toUInt8 then
      match string text (skip text s) with
      | .error e => .error e
      | .ok (k, ⟨s₁, h₁⟩) =>
        if byte? text (skip text s₁).offset = some ':'.toUInt8 then
          .ok (k, ⟨(skip text s₁).move 1, Nat.le_trans h₁ (Nat.le_succ_of_le (offset_le_skip text s₁))⟩)
        else fail text (skip text s₁) .colonExpected
    else fail text (skip text s) .keyExpected

def member (element : (s : State) → Step s Written) (s : State) : Step s (String × Written) :=
  match key text s with
  | .error e => .error e
  | .ok (k, ⟨s₁, h₁⟩) =>
    match element s₁ with
    | .error e => .error e
    | .ok (w, ⟨s₂, h₂⟩) => .ok ((k, w), ⟨s₂, Nat.le_trans h₁ h₂⟩)

/-! ### Values -/

def spanned {α : Type} {s : State} (first : Position) (make : Span → α → Written) (read : Step s α) :
    Step s Written :=
  match read with
  | .error e => .error e
  | .ok (a, ⟨t, h⟩) =>
    match here text t with
    | .error e => .error e
    | .ok (last, u) => .ok (make ⟨first, last⟩ a, ⟨u.1, Nat.le_trans h u.2⟩)

/-- The value after white space, inside which there may be `levels` nested values, itself counted. -/
def value (levels : Nat) (s : State) : Step s Written :=
  match levels with
  | 0 => fail text (skip text s) .tooDeep
  | levels + 1 =>
    match here text (skip text s) with
    | .error e => .error e
    | .ok (first, ⟨s₁, h₁⟩) =>
      later (Nat.le_trans (offset_le_skip text s) h₁) <|
        match byte? text s₁.offset with
        | none => fail text s₁ .endOfInput
        | some b =>
          if b = '\x7b'.toUInt8 then
            spanned text first .object
              (container text '\x7d' .objectUnfinished (member text (value levels)) s₁)
          else if b = '['.toUInt8 then
            spanned text first .array (container text ']' .arrayUnfinished (value levels) s₁)
          else if b = '"'.toUInt8 then spanned text first .string (string text s₁)
          else if b = 't'.toUInt8 then
            spanned text first (fun s _ => .bool s true) (word text "true".toList s₁)
          else if b = 'f'.toUInt8 then
            spanned text first (fun s _ => .bool s false) (word text "false".toList s₁)
          else if b = 'n'.toUInt8 then spanned text first (fun s _ => .null s) (word text "null".toList s₁)
          else if b = '-'.toUInt8 || isDigit b then
            spanned text first .number (number text s₁)
          else
            match cut text s₁.offset text.utf8ByteSize with
            | .error e => .error e
            | .ok piece => fail text s₁ (.unexpectedCharacter (piece.toList.head?.getD '\x00'))

def readWritten : Except Stop Written :=
  match value text (maxDepth + 1) (start text) with
  | .error e => .error e
  | .ok (w, ⟨s, _⟩) =>
    match byte? text (skip text s).offset with
    | none => .ok w
    | some _ => fail text (skip text s) .trailingCharacters

def read : Except Stop Tree :=
  (readWritten text).map Tree.ofWritten

end

end ApiLint.Json.Bytewise
