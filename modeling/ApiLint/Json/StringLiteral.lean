import ApiLint.Text.Position
import ApiLint.Text.Rest

/-!
# String literals

A string literal is read in two passes.  `StringLiteral.scan` looks for the closing quote: a backslash
hides the character after it, and a control character may not stand in between.  `StringLiteral.decode`
then replaces the escapes in what stands between the quotes.  An escape of four hexadecimal digits names
a unit of UTF-16, and two units of a pair name one character; half a pair alone is a fault.

A fault found by decoding counts bytes from the opening quote.
-/

namespace ApiLint

/-- What can be wrong inside a string literal whose end has been found. -/
inductive EscapeFault where
  | invalidEscape
  | endOfString
  | loneSurrogate
  | unfinishedPair
  deriving DecidableEq, Repr

def EscapeFault.message : EscapeFault → String
  | invalidEscape => "invalid escape"
  | endOfString => "EOF while parsing a string"
  | loneSurrogate => "lone leading surrogate in hex escape"
  | unfinishedPair => "unexpected end of hex escape"

namespace StringLiteral

/-! ### The closing quote -/

/-- Why no closing quote was found. -/
inductive ScanFault where
  | unterminated
  | controlCharacter (position : Position) (rest : List Char)

/-- What stands before the closing quote, and the point and the text after it.  The flag says that a
backslash hides the next character. -/
def scan (p : Position) (hidden : Bool) :
    List Char → Except ScanFault (List Char × Position × List Char)
  | [] => .error .unterminated
  | c :: cs =>
    if hidden then
      (scan (p.past c) false cs).map fun r => (c :: r.1, r.2)
    else if c = '"' then .ok ([], p.past c, cs)
    else if c.toNat < 0x20 then .error (.controlCharacter p (c :: cs))
    else (scan (p.past c) (c = '\\') cs).map fun r => (c :: r.1, r.2)

theorem scan_shorter {p : Position} {hidden : Bool} {cs : List Char}
    {r : List Char × Position × List Char} (h : scan p hidden cs = .ok r) :
    r.2.2.length < cs.length := by
  induction cs generalizing p hidden r with
  | nil => simp [scan] at h
  | cons c cs ih =>
    have step : ∀ {b : Bool}, (scan (p.past c) b cs).map (fun r => (c :: r.1, r.2)) = .ok r →
        r.2.2.length < (c :: cs).length := by
      intro b hb
      cases hs : scan (p.past c) b cs with
      | error e => simp [hs, Except.map] at hb
      | ok t =>
        simp only [hs, Except.map, Except.ok.injEq] at hb
        have := ih hs
        rw [← hb]
        simp only [List.length_cons]
        omega
    simp only [scan] at h
    split at h
    · exact step h
    · split at h
      · simp only [Except.ok.injEq] at h
        simp [← h]
      · split at h
        · simp at h
        · exact step h

/-! ### Escapes -/

def hexDigit? (c : Char) : Option Nat :=
  if '0' ≤ c ∧ c ≤ '9' then some (c.toNat - '0'.toNat)
  else if 'a' ≤ c ∧ c ≤ 'f' then some (c.toNat - 'a'.toNat + 10)
  else if 'A' ≤ c ∧ c ≤ 'F' then some (c.toNat - 'A'.toNat + 10)
  else none

def hex4? (a b c d : Char) : Option Nat := do
  let a ← hexDigit? a
  let b ← hexDigit? b
  let c ← hexDigit? c
  let d ← hexDigit? d
  return ((a * 16 + b) * 16 + c) * 16 + d

/-- A fault and the number of bytes of the literal up to it. -/
abbrev Fault := EscapeFault × Nat

/-- Four hexadecimal digits, `n` bytes into the literal.  Where they are missing, fewer than four bytes
up to the closing quote are an early end, and anything else is a wrong escape. -/
def unit (n : Nat) : (cs : List Char) → Except Fault (Nat × Shorter cs)
  | a :: b :: c :: d :: rest =>
    match hex4? a b c d with
    | some m => .ok (m, ⟨rest, by simp only [List.length_cons]; omega⟩)
    | none => .error (.invalidEscape, n + 4)
  | cs =>
    if byteSize cs + 1 < 4 then .error (.endOfString, n + byteSize cs + 1)
    else .error (.invalidEscape, n + 4)

def isHighSurrogate (n : Nat) : Bool := 0xD800 ≤ n && n ≤ 0xDBFF

def isLowSurrogate (n : Nat) : Bool := 0xDC00 ≤ n && n ≤ 0xDFFF

def pair (high low : Nat) : Char :=
  Char.ofNat ((high - 0xD800) * 0x400 + (low - 0xDC00) + 0x10000)

/-- The character named by the digits after a backslash and `u`, with the second half of a pair where
the first half asks for one, and the number of bytes of the literal up to its end. -/
def unicodeEscape (n : Nat) (cs : List Char) : Except Fault (Char × Nat × Shorter cs) :=
  match unit n cs with
  | .error e => .error e
  | .ok (high, ⟨rest, shorter⟩) =>
    if isLowSurrogate high then .error (.loneSurrogate, n + 4)
    else if isHighSurrogate high then
      match rest with
      | '\\' :: 'u' :: more =>
        match unit (n + 6) more with
        | .error e => .error e
        | .ok (low, ⟨rest, shorter'⟩) =>
          if isLowSurrogate low then
            .ok (pair high low, n + 10, ⟨rest, by simp only [List.length_cons] at shorter; omega⟩)
          else .error (.loneSurrogate, n + 10)
      | '\\' :: _ => .error (.unfinishedPair, n + 6)
      | _ => .error (.unfinishedPair, n + 5)
    else .ok (Char.ofNat high, n + 4, ⟨rest, shorter⟩)

def simpleEscape? : Char → Option Char
  | '"' => some '"'
  | '\\' => some '\\'
  | '/' => some '/'
  | 'b' => some '\x08'
  | 'f' => some '\x0c'
  | 'n' => some '\n'
  | 'r' => some '\r'
  | 't' => some '\t'
  | _ => none

/-- The character that what follows a backslash stands for, and the number of bytes of the literal up to
its end. -/
def escape (n : Nat) (cs : List Char) : Except Fault (Char × Nat × Shorter cs) :=
  match cs with
  | [] => .error (.endOfString, n)
  | c :: cs =>
    if c = 'u' then
      match unicodeEscape (n + 1) cs with
      | .error e => .error e
      | .ok (d, m, ⟨rest, shorter⟩) => .ok (d, m, ⟨rest, length_lt_cons_of_lt c shorter⟩)
    else
      match simpleEscape? c with
      | some d => .ok (d, n + 1, ⟨cs, length_lt_cons c cs⟩)
      | none => .error (.invalidEscape, n + 1)

/-- The text between the quotes with its escapes replaced; `n` bytes of the literal come before. -/
def decode (n : Nat) : List Char → Except Fault (List Char)
  | [] => .ok []
  | c :: cs =>
    if c = '\\' then
      match escape (n + 1) cs with
      | .error e => .error e
      | .ok (d, m, ⟨rest, _⟩) => (decode m rest).map (d :: ·)
    else (decode (n + c.utf8Size) cs).map (c :: ·)
termination_by cs => cs.length
decreasing_by
  · simp only [List.length_cons]; omega
  · simp

/-- The line and the column that `n` bytes of `cs` lead to, both in bytes. -/
def placeAfter (line column n : Nat) : List Char → Nat × Nat
  | [] => (line, column + n)
  | c :: cs =>
    if n < c.utf8Size then (line, column + n)
    else if c = '\n' then placeAfter (line + 1) 0 (n - 1) cs
    else placeAfter line (column + c.utf8Size) (n - c.utf8Size) cs

/-- Line and column of a fault within the literal.  The opening quote is the first byte. -/
def faultPlace (body : List Char) (fault : Fault) : Nat × Nat :=
  placeAfter 1 1 (fault.2 - 1) body

end StringLiteral

end ApiLint
