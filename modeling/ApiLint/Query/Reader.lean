import ApiLint.Query.Syntax
import ApiLint.Text.Alphanumeric
import ApiLint.Text.Blank
import ApiLint.Text.Rest

/-!
# Reading queries

`Query.read` turns a text such as `$.paths.*[?(@.in === 'body')]^` into a `Query`, or says at which byte
it goes wrong.  In a filter, `||` binds loosest, then `&&`, then one comparison, which does not chain,
then `!`; `||` and `&&` group to the left.

A reader takes the text that is left and returns what it read together with a text that is shorter.  A
fault remembers the text that was left, from which its offset follows.
-/

namespace ApiLint.Query

inductive Problem where
  | rootExpected
  | unexpectedCharacter (c : Char)
  | nameExpected
  | tokenExpected (token : String)
  | selectorExpected
  | operandExpected
  | filterUnfinished
  | unterminatedString
  | unterminatedEscape
  | integerExpected
  | invalidNumber
  deriving DecidableEq, Repr

def Problem.message : Problem → String
  | rootExpected => "query must start with '$'"
  | unexpectedCharacter c => s!"unexpected character '{c}'"
  | nameExpected => "expected a member name"
  | tokenExpected token => s!"expected '{token}'"
  | selectorExpected => "expected a name, index or '*'"
  | operandExpected => "expected an operand"
  | filterUnfinished => "unexpected end of filter"
  | unterminatedString => "unterminated string"
  | unterminatedEscape => "unterminated escape"
  | integerExpected => "expected an integer"
  | invalidNumber => "invalid number"

namespace Reader

/-- A problem and the text that was left when it was found. -/
structure Fault where
  problem : Problem
  rest : List Char

/-- What was read, and a shorter text. -/
abbrev Taken (cs : List Char) (α : Type) := Except Fault (α × Shorter cs)

/-- What was read, and a text no longer. -/
abbrev Perhaps (cs : List Char) (α : Type) := Except Fault (α × NoLonger cs)

/-- The problem `p`, found in front of `cs`. -/
def fail {α : Type} (p : Problem) (cs : List Char) : Except Fault α :=
  .error ⟨p, cs⟩

/-! ### Tokens -/

def expect (t : Char) (cs : List Char) : Taken cs Unit :=
  match cs with
  | [] => fail (.tokenExpected t.toString) []
  | c :: rest =>
    if c = t then .ok ((), ⟨rest, length_lt_cons c rest⟩)
    else fail (.tokenExpected t.toString) (c :: rest)

def expectNext (t : Char) (cs : List Char) : Taken cs Unit :=
  match expect t (skipBlanks cs) with
  | .error e => .error e
  | .ok ((), ⟨rest, h⟩) => .ok ((), ⟨rest, Nat.lt_of_lt_of_le h (length_skipBlanks_le cs)⟩)

def after? (w cs : List Char) : Option (List Char) :=
  if w <+: cs then some (cs.drop w.length) else none

theorem length_of_after? {w cs rest : List Char} (h : after? w cs = some rest) :
    rest.length + w.length = cs.length := by
  simp only [after?] at h
  split at h
  · next hw =>
    have := hw.length_le
    simp only [Option.some.injEq] at h
    rw [← h, List.length_drop]
    omega
  · simp at h

/-- What follows the word `w` in `cs`, provided the word ends there. -/
def afterWord? (w cs : List Char) : Option (List Char) :=
  (after? w cs).filter fun rest =>
    match rest with
    | [] => true
    | c :: _ => !(isAlphanumeric c || c = '_')

theorem length_of_afterWord? {w cs rest : List Char} (h : afterWord? w cs = some rest) :
    rest.length + w.length = cs.length :=
  length_of_after? (Option.filter_eq_some_iff.1 h).1

theorem length_lt_cons_of_afterWord? {w cs rest : List Char} (c : Char) (h : afterWord? w cs = some rest) :
    rest.length < (c :: cs).length := by
  have := length_of_afterWord? h
  simp only [List.length_cons]
  omega

/-- The word for the place that a filter tests, after `@`. -/
def propertyWord : List Char := "property".toList

/-- The longest run of characters with the property `p`, which may not be empty. -/
def run (p : Char → Bool) (cs : List Char) : Taken cs String :=
  match cs with
  | [] => fail .nameExpected []
  | c :: rest =>
    if p c then
      .ok (String.ofList (c :: rest.takeWhile p), ⟨rest.dropWhile p,
        Nat.lt_succ_of_le (List.dropWhile_sublist p).length_le⟩)
    else fail .nameExpected (c :: rest)

def isMemberChar (c : Char) : Bool :=
  !".[]^()'\"".toList.contains c && !isBlank c

/-- A character that a member name without quotes may hold after a dot in a filter. -/
def isAccessorChar (c : Char) : Bool :=
  isAlphanumeric c || c = '_' || c = '$' || c = '-'

def unescape (c : Char) : Char :=
  if c = 'n' then '\n' else if c = 't' then '\t' else if c = 'r' then '\r' else c

/-- What stands before the closing quote, and what follows it.  The flag says that a backslash came
just before. -/
def quotedBody (quote : Char) (escaped : Bool) :
    List Char → Except Problem (List Char × List Char)
  | [] => .error (if escaped then .unterminatedEscape else .unterminatedString)
  | c :: cs =>
    if escaped then (quotedBody quote false cs).map fun r => (unescape c :: r.1, r.2)
    else if c = quote then .ok ([], cs)
    else if c = '\\' then quotedBody quote true cs
    else (quotedBody quote false cs).map fun r => (c :: r.1, r.2)

theorem quotedBody_shorter {quote : Char} {escaped : Bool} {cs : List Char}
    {r : List Char × List Char} (h : quotedBody quote escaped cs = .ok r) :
    r.2.length < cs.length := by
  induction cs generalizing escaped r with
  | nil => simp [quotedBody] at h
  | cons c cs ih =>
    have step : ∀ {d : Char}, (quotedBody quote false cs).map (fun r => (d :: r.1, r.2)) = .ok r →
        r.2.length < (c :: cs).length := by
      intro d hd
      cases hs : quotedBody quote false cs with
      | error e => simp [hs, Except.map] at hd
      | ok t =>
        simp only [hs, Except.map, Except.ok.injEq] at hd
        rw [← hd]
        exact Nat.lt_succ_of_lt (show t.2.length < cs.length from ih hs)
    simp only [quotedBody] at h
    split at h
    · exact step h
    · split at h
      · simp only [Except.ok.injEq] at h
        simp [← h]
      · split at h
        · exact Nat.lt_succ_of_lt (ih h)
        · exact step h

def quoted (cs : List Char) : Taken cs String :=
  match cs with
  | [] => fail .unterminatedString []
  | quote :: rest =>
    match h : quotedBody quote false rest with
    | .error .unterminatedEscape => fail .unterminatedEscape []
    | .error p => fail p (quote :: rest)
    | .ok (body, after) =>
      .ok (String.ofList body, ⟨after, Nat.lt_succ_of_lt (quotedBody_shorter h)⟩)

def isQuote (c : Char) : Bool :=
  c = '\'' || c = '"'

def integerText : List Char → List Char × List Char
  | '-' :: cs => ('-' :: cs.takeWhile Char.isDigit, cs.dropWhile Char.isDigit)
  | cs => (cs.takeWhile Char.isDigit, cs.dropWhile Char.isDigit)

def int64? : List Char → Option Int
  | '-' :: ds =>
    if !ds.isEmpty && digitsValue ds ≤ signedLimit then some (-(digitsValue ds : Int)) else none
  | ds => if !ds.isEmpty && digitsValue ds < signedLimit then some (digitsValue ds) else none

def integer (cs : List Char) : Taken cs Int :=
  match int64? (integerText cs).1 with
  | none => fail .integerExpected cs
  | some i =>
    if h : (integerText cs).2.length < cs.length then .ok (i, ⟨(integerText cs).2, h⟩)
    else fail .integerExpected cs

def number (cs : List Char) : Taken cs Number :=
  match cs with
  | [] => fail .invalidNumber []
  | c :: rest =>
    match Number.ofChars? (c :: rest.takeWhile isNumeralChar) with
    | none => fail .invalidNumber (c :: rest)
    | some n => .ok (n, ⟨rest.dropWhile isNumeralChar,
        Nat.lt_succ_of_le (List.dropWhile_sublist isNumeralChar).length_le⟩)

def startsNumber (c : Char) : Bool :=
  c = '-' || c.isDigit

/-! ### Filters -/

def bracketed (cs : List Char) : Taken cs Accessor :=
  match cs with
  | [] => fail .integerExpected []
  | c :: rest =>
    if isQuote c then (quoted (c :: rest)).map fun r => (.key r.1, r.2)
    else (integer (c :: rest)).map fun r => (.index r.1, r.2)

/-- An accessor, after its first character. -/
def accessor (first : Char) (cs : List Char) : Taken cs Accessor :=
  if first = '.' then (run isAccessorChar cs).map fun r => (.key r.1, r.2)
  else
    match bracketed (skipBlanks cs) with
    | .error e => .error e
    | .ok (a, ⟨rest, h⟩) =>
      match expectNext ']' rest with
      | .error e => .error e
      | .ok ((), ⟨rest', h'⟩) => .ok (a, ⟨rest', by
          have := length_skipBlanks_le cs
          omega⟩)

def accessors (cs : List Char) : Perhaps cs (List Accessor) :=
  match cs with
  | [] => .ok ([], ⟨[], Nat.le_refl _⟩)
  | c :: rest =>
    if c = '.' || c = '[' then
      match accessor c rest with
      | .error e => .error e
      | .ok (a, ⟨rest₁, h₁⟩) =>
        match accessors rest₁ with
        | .error e => .error e
        | .ok (as, ⟨rest₂, h₂⟩) =>
          .ok (a :: as, ⟨rest₂, by simp only [List.length_cons]; omega⟩)
    else .ok ([], ⟨c :: rest, Nat.le_refl _⟩)
termination_by cs.length

def constants : List (List Char × Literal) :=
  [("true".toList, .bool true), ("false".toList, .bool false), ("null".toList, .null),
    ("undefined".toList, .undefined)]

/-- The first of the words `ws` that stands here. -/
def constant (ws : List (List Char × Literal)) (cs : List Char) : Taken cs Literal :=
  match ws with
  | [] => fail .operandExpected cs
  | (w, l) :: ws =>
    match afterWord? w cs with
    | none => constant ws cs
    | some rest =>
      if h : rest.length < cs.length then .ok (l, ⟨rest, h⟩) else fail .operandExpected cs

def comparison? (ops : List Comparison) (cs : List Char) : Option (Comparison × List Char) :=
  match ops with
  | [] => none
  | op :: ops =>
    match after? op.symbol cs with
    | some rest => some (op, rest)
    | none => comparison? ops cs

theorem length_of_comparison? {ops : List Comparison} {cs : List Char}
    {r : Comparison × List Char} (h : comparison? ops cs = some r) :
    r.2.length ≤ cs.length := by
  induction ops with
  | nil => simp [comparison?] at h
  | cons op ops ih =>
    simp only [comparison?] at h
    split at h
    · next rest hr =>
      have := length_of_after? hr
      simp only [Option.some.injEq] at h
      rw [← h]
      show rest.length ≤ cs.length
      omega
    · exact ih h

/-- Whether the text goes on with a negation, which an exclamation mark in front of an equals sign is
not. -/
def negates : List Char → Bool
  | '!' :: '=' :: _ => false
  | '!' :: _ => true
  | _ => false

mutual

def orExpr (cs : List Char) : Taken cs Expr :=
  match andExpr cs with
  | .error e => .error e
  | .ok (e, ⟨rest, h⟩) =>
    match orRest e rest with
    | .error e => .error e
    | .ok (e, ⟨rest', h'⟩) => .ok (e, ⟨rest', by omega⟩)
termination_by (cs.length, 5)

/-- What may follow the alternatives read so far. -/
def orRest (left : Expr) (cs : List Char) : Perhaps cs Expr :=
  match h : after? "||".toList (skipBlanks cs) with
  | none => .ok (left, ⟨skipBlanks cs, length_skipBlanks_le cs⟩)
  | some rest =>
    have hr : rest.length < cs.length := by
      have := length_of_after? h
      have := length_skipBlanks_le cs
      simp at *
      omega
    match andExpr rest with
    | .error e => .error e
    | .ok (right, ⟨rest₁, h₁⟩) =>
      match orRest (.or left right) rest₁ with
      | .error e => .error e
      | .ok (e, ⟨rest₂, h₂⟩) => .ok (e, ⟨rest₂, by omega⟩)
termination_by (cs.length, 0)

def andExpr (cs : List Char) : Taken cs Expr :=
  match comparison cs with
  | .error e => .error e
  | .ok (e, ⟨rest, h⟩) =>
    match andRest e rest with
    | .error e => .error e
    | .ok (e, ⟨rest', h'⟩) => .ok (e, ⟨rest', by omega⟩)
termination_by (cs.length, 4)

def andRest (left : Expr) (cs : List Char) : Perhaps cs Expr :=
  match h : after? "&&".toList (skipBlanks cs) with
  | none => .ok (left, ⟨skipBlanks cs, length_skipBlanks_le cs⟩)
  | some rest =>
    have hr : rest.length < cs.length := by
      have := length_of_after? h
      have := length_skipBlanks_le cs
      simp at *
      omega
    match comparison rest with
    | .error e => .error e
    | .ok (right, ⟨rest₁, h₁⟩) =>
      match andRest (.and left right) rest₁ with
      | .error e => .error e
      | .ok (e, ⟨rest₂, h₂⟩) => .ok (e, ⟨rest₂, by omega⟩)
termination_by (cs.length, 0)

/-- An operand, or two of them compared. -/
def comparison (cs : List Char) : Taken cs Expr :=
  match unary cs with
  | .error e => .error e
  | .ok (left, ⟨rest, h⟩) =>
    have hs : (skipBlanks rest).length ≤ rest.length := length_skipBlanks_le rest
    match hc : comparison? Comparison.all (skipBlanks rest) with
    | none => .ok (left, ⟨skipBlanks rest, by omega⟩)
    | some (op, rest₁) =>
      have h₁ : rest₁.length ≤ (skipBlanks rest).length := length_of_comparison? hc
      match unary rest₁ with
      | .error e => .error e
      | .ok (right, ⟨rest₂, h₂⟩) => .ok (.compare op left right, ⟨rest₂, by omega⟩)
termination_by (cs.length, 3)

def unary (cs : List Char) : Taken cs Expr :=
  have hs : (skipBlanks cs).length ≤ cs.length := length_skipBlanks_le cs
  match h : skipBlanks cs with
  | [] => fail .filterUnfinished []
  | c :: rest =>
    have hr : rest.length < cs.length := by rw [h] at hs; exact hs
    if negates (c :: rest) then
      match unary rest with
      | .error e => .error e
      | .ok (e, ⟨rest₁, h₁⟩) => .ok (.not e, ⟨rest₁, length_lt_trans h₁ hr⟩)
    else
      match primary c rest with
      | .error e => .error e
      | .ok (e, ⟨rest₁, h₁⟩) => .ok (e, ⟨rest₁, length_lt_of_lt_cons h₁ hr⟩)
termination_by (cs.length, 2)

def primary (c : Char) (rest : List Char) : Taken (c :: rest) Expr :=
  if c = '(' then
    match orExpr rest with
    | .error e => .error e
    | .ok (e, ⟨rest₁, h₁⟩) =>
      match expectNext ')' rest₁ with
      | .error e => .error e
      | .ok ((), ⟨rest₂, h₂⟩) =>
        have h₃ : rest₂.length < rest.length := length_lt_trans h₂ h₁
        .ok (e, ⟨rest₂, length_lt_cons_of_lt c h₃⟩)
  else if c = '@' then
    match h : afterWord? propertyWord rest with
    | some rest₁ => .ok (.property, ⟨rest₁, length_lt_cons_of_afterWord? c h⟩)
    | none =>
      match accessors rest with
      | .error e => .error e
      | .ok (as, ⟨rest₁, h₁⟩) => .ok (.current as, ⟨rest₁, length_lt_cons_of_le c h₁⟩)
  else if isQuote c then (quoted (c :: rest)).map fun r => (.literal (.string r.1), r.2)
  else if startsNumber c then (number (c :: rest)).map fun r => (.literal (.number r.1), r.2)
  else (constant constants (c :: rest)).map fun r => (.literal r.1, r.2)
termination_by (rest.length, 6)

end

/-! ### Steps -/

def selector (cs : List Char) : Taken cs Selector :=
  match cs with
  | [] => fail .selectorExpected []
  | c :: rest =>
    if c = '*' then .ok (.wildcard, ⟨rest, length_lt_cons c rest⟩)
    else if isQuote c then (quoted (c :: rest)).map fun r => (.name r.1, r.2)
    else if startsNumber c then (integer (c :: rest)).map fun r => (.index r.1, r.2)
    else fail .selectorExpected (c :: rest)

def selectors (cs : List Char) : Taken cs (List Selector) :=
  match selector (skipBlanks cs) with
  | .error e => .error e
  | .ok (s, ⟨rest, h⟩) =>
    have hs : (skipBlanks cs).length ≤ cs.length := length_skipBlanks_le cs
    match h₁ : after? [']'] (skipBlanks rest) with
    | some rest₁ => .ok ([s], ⟨rest₁, by
        have := length_of_after? h₁
        have := length_skipBlanks_le rest
        omega⟩)
    | none =>
      match expectNext ',' rest with
      | .error e => .error e
      | .ok ((), ⟨rest₁, h₁⟩) =>
        match selectors rest₁ with
        | .error e => .error e
        | .ok (ss, ⟨rest₂, h₂⟩) => .ok (s :: ss, ⟨rest₂, by omega⟩)
termination_by cs.length

/-- A filter in parentheses, up to the closing bracket. -/
def filter (cs : List Char) : Taken cs (List Selector) :=
  match expectNext '(' cs with
  | .error e => .error e
  | .ok ((), ⟨rest₁, h₁⟩) =>
    match orExpr rest₁ with
    | .error e => .error e
    | .ok (e, ⟨rest₂, h₂⟩) =>
      match expectNext ')' rest₂ with
      | .error e => .error e
      | .ok ((), ⟨rest₃, h₃⟩) =>
        match expectNext ']' rest₃ with
        | .error e => .error e
        | .ok ((), ⟨rest₄, h₄⟩) => .ok ([.filter e], ⟨rest₄, by omega⟩)

def bracket (cs : List Char) : Taken cs (List Selector) :=
  have hs : (skipBlanks cs).length ≤ cs.length := length_skipBlanks_le cs
  match h : skipBlanks cs with
  | [] => selectors cs
  | c :: rest =>
    if c = '?' then
      match filter rest with
      | .error e => .error e
      | .ok (ss, ⟨rest₁, h₁⟩) => .ok (ss, ⟨rest₁, by
          rw [h] at hs
          simp only [List.length_cons] at hs
          omega⟩)
    else selectors cs

def member (cs : List Char) : Taken cs (List Selector) :=
  match after? ['*'] cs with
  | some rest =>
    if h : rest.length < cs.length then .ok ([.wildcard], ⟨rest, h⟩) else fail .nameExpected cs
  | none => (run isMemberChar cs).map fun r => ([.name r.1], r.2)

def descendant (cs : List Char) : Taken cs (List Selector) :=
  match cs with
  | '[' :: rest =>
    match bracket rest with
    | .error e => .error e
    | .ok (ss, ⟨rest₁, h₁⟩) => .ok (ss, ⟨rest₁, length_lt_cons_of_lt '[' h₁⟩)
  | cs => member cs

def step (cs : List Char) : Taken cs Step :=
  match cs with
  | [] => fail .nameExpected []
  | c :: rest =>
    let fromRest {α : Type} (f : α → Step) (r : Taken rest α) : Taken (c :: rest) Step :=
      r.map fun r => (f r.1, ⟨r.2.1, Nat.lt_succ_of_lt r.2.2⟩)
    if c = '.' then
      match rest with
      | '.' :: more =>
        (descendant more).map fun r =>
          (.descendant r.1, ⟨r.2.1, Nat.lt_succ_of_lt (Nat.lt_succ_of_lt r.2.2)⟩)
      | rest => (member rest).map fun r => (.child r.1, ⟨r.2.1, Nat.lt_succ_of_lt r.2.2⟩)
    else if c = '[' then fromRest .child (bracket rest)
    else if c = '^' then .ok (.parent, ⟨rest, length_lt_cons c rest⟩)
    else fail (.unexpectedCharacter c) (c :: rest)

def allSteps (cs : List Char) : Except Fault (List Step) :=
  match h : skipBlanks cs with
  | [] => .ok []
  | c :: rest =>
    match step (c :: rest) with
    | .error e => .error e
    | .ok (s, ⟨rest₁, h₁⟩) =>
      have : rest₁.length < cs.length :=
        Nat.lt_of_lt_of_le h₁ (h ▸ length_skipBlanks_le cs)
      (allSteps rest₁).map (s :: ·)
termination_by cs.length

def readChars (cs : List Char) : Except Fault (List Step) :=
  match skipBlanks cs with
  | [] => fail .rootExpected []
  | c :: rest => if c = '$' then allSteps rest else fail .rootExpected (c :: rest)

end Reader

/-- Why a text is not a query, and where, in bytes. -/
structure ReadError where
  query : String
  offset : Nat
  problem : Problem
  deriving DecidableEq, Repr

def ReadError.message (e : ReadError) : String :=
  s!"invalid query '{e.query}' at offset {e.offset}: {e.problem.message}"

def read (text : String) : Except ReadError Query :=
  match Reader.readChars text.toList with
  | .ok steps => .ok ⟨text, steps⟩
  | .error fault => .error ⟨text, byteSize text.toList - byteSize fault.rest, fault.problem⟩

end ApiLint.Query
