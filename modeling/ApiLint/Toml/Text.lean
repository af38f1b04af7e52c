import ApiLint.Json.StringLiteral
import ApiLint.Text.Rest

/-!
# Strings and blanks of a settings file

A string stands between double quotes, where a backslash starts an escape, or between single quotes,
where it does not.  Three quotes at the start make a string that may run over lines; it ends at three
quotes, in front of which one or two more belong to the string.
-/

namespace ApiLint.Toml

/-- A character that may stand anywhere but at the end of a line: a tab, or no control character. -/
def isPlain (c : Char) : Bool :=
  c = '\t' || (0x20 ≤ c.toNat && c.toNat ≠ 0x7F)

def isGap (c : Char) : Bool :=
  c = ' ' || c = '\t'

def skipGaps (cs : List Char) : List Char :=
  cs.dropWhile isGap

def newline? : List Char → Option (List Char)
  | '\n' :: cs => some cs
  | '\r' :: '\n' :: cs => some cs
  | _ => none

theorem length_of_newline? {cs rest : List Char} (h : newline? cs = some rest) :
    rest.length < cs.length := by
  unfold newline? at h
  split at h
  · simp only [Option.some.injEq] at h
    simp [h]
  · simp only [Option.some.injEq] at h
    simp only [h, List.length_cons]
    omega
  · simp at h

/-- What follows spaces, tabs, ends of lines and comments. -/
def skipLines (cs : List Char) : List Char :=
  match cs with
  | [] => []
  | c :: rest =>
    if isGap c then skipLines rest
    else if c = '#' then skipLines (rest.dropWhile isPlain)
    else
      match _h : newline? (c :: rest) with
      | some rest' => skipLines rest'
      | none => c :: rest
termination_by cs.length
decreasing_by
  · simp
  · have := (List.dropWhile_sublist isPlain (l := rest)).length_le
    simp only [List.length_cons]
    omega
  · exact length_of_newline? _h

/-- What follows the end of a line in front of which only blanks and a comment stand. -/
def lineEnd? (cs : List Char) : Option (List Char) :=
  let rest := match skipGaps cs with
    | '#' :: comment => comment.dropWhile isPlain
    | rest => rest
  if rest.isEmpty then some [] else newline? rest

/-! ### Escapes -/

def codeEscape? (n : Nat) (cs : List Char) : Option (Char × NoLonger cs) := do
  let ds ← (cs.take n).mapM StringLiteral.hexDigit?
  let code := ds.foldl (fun m d => m * 16 + d) 0
  if ds.length = n ∧ code.isValidChar then
    some (Char.ofNat code, ⟨cs.drop n, by simp⟩)
  else none

def letterEscape? : Char → Option Char
  | '"' => some '"'
  | '\\' => some '\\'
  | 'b' => some '\x08'
  | 'f' => some '\x0c'
  | 'n' => some '\n'
  | 'r' => some '\r'
  | 't' => some '\t'
  | _ => none

def escape? : (cs : List Char) → Option (Char × Shorter cs)
  | [] => none
  | c :: cs =>
    let code (n : Nat) : Option (Char × Shorter (c :: cs)) :=
      (codeEscape? n cs).map fun r => (r.1, ⟨r.2.1, Nat.lt_succ_of_le r.2.2⟩)
    if c = 'u' then code 4
    else if c = 'U' then code 8
    else (letterEscape? c).map fun d => (d, ⟨cs, length_lt_cons c cs⟩)

/-! ### On one line -/

/-- What stands before the closing double quote, and what follows it. -/
def basicBody (cs : List Char) : Option (List Char × List Char) :=
  match cs with
  | [] => none
  | c :: cs =>
    if c = '"' then some ([], cs)
    else if c = '\\' then
      match escape? cs with
      | none => none
      | some (d, ⟨rest, _⟩) => (basicBody rest).map fun r => (d :: r.1, r.2)
    else if isPlain c then (basicBody cs).map fun r => (c :: r.1, r.2)
    else none
termination_by cs.length
decreasing_by
  · simp only [List.length_cons]; omega
  · simp

def literalBody : List Char → Option (List Char × List Char)
  | [] => none
  | c :: cs =>
    if c = '\'' then some ([], cs)
    else if isPlain c then (literalBody cs).map fun r => (c :: r.1, r.2)
    else none

/-! ### Over lines -/

def skipBreaks : List Char → List Char
  | [] => []
  | '\r' :: '\n' :: cs => skipBreaks cs
  | c :: cs => if isGap c || c = '\n' then skipBreaks cs else c :: cs

theorem length_skipBreaks (cs : List Char) : (skipBreaks cs).length ≤ cs.length := by
  fun_induction skipBreaks cs with
  | case1 => simp
  | case2 cs ih => simp only [List.length_cons]; omega
  | case3 c cs _ _ ih => simp only [List.length_cons]; omega
  | case4 => simp

/-- What follows a backslash at the end of a line: the next character that is not blank. -/
def foldedLine? (cs : List Char) : Option (List Char) :=
  (newline? (skipGaps cs)).map skipBreaks

theorem length_of_foldedLine? {cs rest : List Char} (h : foldedLine? cs = some rest) :
    rest.length < cs.length := by
  simp only [foldedLine?, Option.map_eq_some_iff] at h
  obtain ⟨more, hm, rfl⟩ := h
  have h₁ := length_of_newline? hm
  have h₂ := (List.dropWhile_sublist isGap (l := cs)).length_le
  have h₃ := length_skipBreaks more
  simp only [skipGaps] at h₁
  omega

/-- What stands before the three closing quotes, and what follows them; up to two quotes more may stand
in front of these. -/
def blockBody (quote : Char) (escapes : Bool) (cs : List Char) : Option (List Char × List Char) :=
  match cs with
  | [] => none
  | c :: rest =>
    if [quote, quote, quote] <+: c :: rest then
      let more := rest.drop 2
      let extra := more.takeWhile (· = quote)
      if extra.length ≤ 2 then some (extra, more.drop extra.length) else none
    else if escapes && c = '\\' then
      match _h : foldedLine? rest with
      | some rest' => blockBody quote escapes rest'
      | none =>
        match escape? rest with
        | none => none
        | some (d, ⟨rest', _⟩) => (blockBody quote escapes rest').map fun r => (d :: r.1, r.2)
    else
      match _h : newline? (c :: rest) with
      | some rest' => (blockBody quote escapes rest').map fun r => ('\n' :: r.1, r.2)
      | none =>
        if isPlain c then (blockBody quote escapes rest).map fun r => (c :: r.1, r.2) else none
termination_by cs.length
decreasing_by
  · have := length_of_foldedLine? _h
    simp only [List.length_cons]
    omega
  · simp only [List.length_cons]; omega
  · exact length_of_newline? _h
  · simp

def lineString (cs : List Char) : Option (String × List Char) :=
  let text (r : Option (List Char × List Char)) : Option (String × List Char) :=
    r.map fun r => (String.ofList r.1, r.2)
  match cs with
  | '"' :: rest => text (basicBody rest)
  | '\'' :: rest => text (literalBody rest)
  | _ => none

/-- A string.  The end of a line right after three opening quotes does not count. -/
def string (cs : List Char) : Option (String × List Char) :=
  let block (quote : Char) (escapes : Bool) (rest : List Char) : Option (String × List Char) :=
    (blockBody quote escapes ((newline? rest).getD rest)).map fun r => (String.ofList r.1, r.2)
  match cs with
  | '"' :: '"' :: '"' :: rest => block '"' true rest
  | '\'' :: '\'' :: '\'' :: rest => block '\'' false rest
  | _ => lineString cs

end ApiLint.Toml
