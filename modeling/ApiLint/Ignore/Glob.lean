/-!
# Glob patterns

A glob is matched against a whole path, byte by byte.  A question mark stands for a byte and an asterisk
for any number of them, slashes excepted; two asterisks between slashes stand for any directories; a
class in brackets stands for one byte of its ranges; braces hold alternatives, which may hold braces; a
backslash takes the meaning from the next character.

`Glob.read?` reads a glob and `Glob.isMatch` matches one.  A match follows all places that the tokens can
lead to at once, so that it takes one pass over the text for each token.
-/

namespace ApiLint.Glob

inductive Token where
  | byte (b : UInt8)
  | any
  | star
  | leadingDirectories
  | innerDirectories
  | trailingDirectories
  | oneOf (negated : Bool) (ranges : List (UInt8 × UInt8))
  | alternatives (options : List (List Token))

/-! ### Places

The places of a text are in front of its bytes and at its end.  A list of truth values, one for each
place, says which of them are reached.
-/

def start (text : List UInt8) : List Bool :=
  true :: text.map fun _ => false

def advance (p : UInt8 → Bool) (text : List UInt8) (reached : List Bool) : List Bool :=
  false :: List.zipWith (fun b r => r && p b) text reached

/-- The places any number of bytes further on, where these have the property `p`.  The flag says whether
the first place is reached from in front of it. -/
def extend (p : UInt8 → Bool) (carried : Bool) : List UInt8 → List Bool → List Bool
  | _, [] => []
  | [], r :: _ => [r || carried]
  | b :: text, r :: reached =>
    (r || carried) :: extend p ((r || carried) && p b) text reached

def either (reached reached' : List Bool) : List Bool :=
  List.zipWith (· || ·) reached reached'

@[simp]
theorem length_start (text : List UInt8) : (start text).length = text.length + 1 := by
  simp [start]

theorem length_advance {p : UInt8 → Bool} {text : List UInt8} {reached : List Bool}
    (h : reached.length = text.length + 1) : (advance p text reached).length = text.length + 1 := by
  simp [advance, h]

theorem length_extend {p : UInt8 → Bool} {carried : Bool} {text : List UInt8} {reached : List Bool}
    (h : reached.length = text.length + 1) :
    (extend p carried text reached).length = text.length + 1 := by
  induction text generalizing carried reached with
  | nil =>
    match reached, h with
    | [r], _ => rfl
  | cons b text ih =>
    match reached, h with
    | r :: reached, h => simpa [extend] using ih (by simpa using h)

theorem length_either {reached reached' : List Bool} (h : reached.length = reached'.length) :
    (either reached reached').length = reached.length := by
  simp [either, h]

/-! ### Matching -/

def slash : UInt8 := 0x2F

def inClass (negated : Bool) (ranges : List (UInt8 × UInt8)) (b : UInt8) : Bool :=
  ranges.any (fun r => r.1 ≤ b && b ≤ r.2) != negated

/-- The places right behind one of the slashes further on. -/
def behindSlashes (text : List UInt8) (reached : List Bool) : List Bool :=
  advance (· = slash) text (extend (fun _ => true) false text reached)

mutual

/-- The places that a token leads to.  Braces without options stand for the empty text. -/
def follow (text : List UInt8) : Token → List Bool → List Bool
  | .byte b => advance (· = b) text
  | .any => advance (· ≠ slash) text
  | .star => extend (· ≠ slash) false text
  | .leadingDirectories => fun reached => either reached (behindSlashes text reached)
  | .innerDirectories => fun reached =>
    let behind := advance (· = slash) text reached
    either behind (behindSlashes text behind)
  | .trailingDirectories => fun reached =>
    extend (fun _ => true) false text (advance (· = slash) text reached)
  | .oneOf negated ranges => advance (inClass negated ranges) text
  | .alternatives options => fun reached =>
    if options.isEmpty then reached else followOne text options reached

def followAll (text : List UInt8) : List Token → List Bool → List Bool
  | [] => fun reached => reached
  | t :: ts => fun reached => followAll text ts (follow text t reached)

def followOne (text : List UInt8) : List (List Token) → List Bool → List Bool
  | [] => fun reached => reached.map fun _ => false
  | option :: options => fun reached =>
    either (followAll text option reached) (followOne text options reached)

end

theorem length_behindSlashes {text : List UInt8} {reached : List Bool}
    (h : reached.length = text.length + 1) :
    (behindSlashes text reached).length = text.length + 1 :=
  length_advance (length_extend h)

mutual

/-- There is a truth value for each place after every token. -/
theorem length_follow {text : List UInt8} (t : Token) {reached : List Bool}
    (h : reached.length = text.length + 1) : (follow text t reached).length = text.length + 1 := by
  cases t with
  | byte b => exact length_advance h
  | any => exact length_advance h
  | star => exact length_extend h
  | leadingDirectories =>
    exact (length_either (h.trans (length_behindSlashes h).symm)).trans h
  | innerDirectories =>
    have h' := length_advance (p := (· = slash)) h
    exact (length_either (h'.trans (length_behindSlashes h').symm)).trans h'
  | trailingDirectories => exact length_extend (length_advance h)
  | oneOf negated ranges => exact length_advance h
  | alternatives options =>
    rw [follow]
    split
    · exact h
    · exact length_followOne options h

theorem length_followAll {text : List UInt8} (ts : List Token) {reached : List Bool}
    (h : reached.length = text.length + 1) : (followAll text ts reached).length = text.length + 1 := by
  cases ts with
  | nil => exact h
  | cons t ts => exact length_followAll ts (length_follow t h)

theorem length_followOne {text : List UInt8} (options : List (List Token)) {reached : List Bool}
    (h : reached.length = text.length + 1) :
    (followOne text options reached).length = text.length + 1 := by
  cases options with
  | nil => simpa [followOne] using h
  | cons option options =>
    have h₁ := length_followAll option h
    have h₂ := length_followOne options h
    exact (length_either (h₁.trans h₂.symm)).trans h₁

end

def isMatch (glob : List Token) (text : String) : Bool :=
  let bytes := text.toUTF8.toList
  match glob with
  | [.leadingDirectories] => true
  | _ => (followAll bytes glob (start bytes)).getLast?.getD false

/-! ### Depth

The braces of a glob are levels of nesting, and so are several options in braces and several parts next to
each other; asterisks and classes have levels of their own.
-/

def depthLimit : Nat := 250

/-- How many parts a token makes of its surroundings. -/
def Token.parts : Token → Nat
  | .trailingDirectories => 2
  | .alternatives [] => 0
  | _ => 1

mutual

def Token.depth : Token → Nat
  | .byte _ => 0
  | .any => 1
  | .star => 2
  | .leadingDirectories => 4
  | .innerDirectories => 4
  | .trailingDirectories => 1
  | .oneOf _ ranges => if ranges.length = 1 then 1 else 2
  | .alternatives [] => 0
  | .alternatives [option] => 1 + optionsDepth [option]
  | .alternatives options => 2 + optionsDepth options

def tokensDepth : List Token → Nat
  | [] => 0
  | t :: ts => max t.depth (tokensDepth ts)

def optionsDepth : List (List Token) → Nat
  | [] => 0
  | option :: options =>
    let side := if 1 < (option.map Token.parts).sum then 1 else 0
    max (side + tokensDepth option) (optionsDepth options)

end

def isShallow (glob : List Token) : Bool :=
  1 + tokensDepth glob ≤ depthLimit

/-! ### Classes -/

def literal (c : Char) : List Token :=
  (String.utf8EncodeChar c).map .byte

/-- The ranges of bytes for a range of characters. -/
def byteRanges (low high : Char) : List (UInt8 × UInt8) :=
  let single (b : UInt8) : UInt8 × UInt8 := (b, b)
  let first := String.utf8EncodeChar low
  let last := String.utf8EncodeChar high
  if low = high then first.map single
  else
    first.dropLast.map single ++ [(first.getLastD 0, last.headD 0)] ++ (last.drop 1).map single

/-- What is found behind the opening bracket of a class: its ranges and what follows the closing bracket,
no closing bracket, or a range whose end comes before its start. -/
inductive ClassBody where
  | closed (ranges : List (Char × Char)) (rest : List Char)
  | unclosed
  | reversed

/-- The ranges of a class up to its closing bracket, those read last in front.  The first flag says that
nothing was read yet, the second that a range waits for its end. -/
def classBody (first waiting : Bool) (ranges : List (Char × Char)) : List Char → ClassBody
  | [] => .unclosed
  | c :: cs =>
    if c = ']' && !first then .closed (if waiting then ('-', '-') :: ranges else ranges) cs
    else if c = '-' && !first && !waiting then classBody false true ranges cs
    else
      match waiting, ranges with
      | true, (low, _) :: ranges =>
        if low ≤ c then classBody false false ((low, c) :: ranges) cs else .reversed
      | _, _ => classBody false false ((c, c) :: ranges) cs

theorem length_of_classBody {first waiting : Bool} {ranges ranges' : List (Char × Char)}
    {cs rest : List Char} (h : classBody first waiting ranges cs = .closed ranges' rest) :
    rest.length < cs.length := by
  induction cs generalizing first waiting ranges with
  | nil => simp [classBody] at h
  | cons c cs ih =>
    simp only [classBody] at h
    split at h
    · simp only [ClassBody.closed.injEq] at h
      simp [h.2]
    · split at h
      · exact Nat.lt_succ_of_lt (ih h)
      · split at h
        · split at h
          · exact Nat.lt_succ_of_lt (ih h)
          · simp at h
        · exact Nat.lt_succ_of_lt (ih h)

def classToken (negated : Bool) (ranges : List (Char × Char)) : Token :=
  .oneOf negated (ranges.flatMap fun range => byteRanges range.1 range.2)

/-- Whether a class is negated, and what follows the mark of that. -/
def negation : List Char → Bool × List Char
  | '!' :: cs => (true, cs)
  | '^' :: cs => (true, cs)
  | cs => (false, cs)

theorem length_negation (cs : List Char) : (negation cs).2.length ≤ cs.length := by
  unfold negation
  split <;> simp

/-! ### Reading -/

/-- Braces that are open: the tokens in front of them and the options that are complete, the last one
first each. -/
structure Braces where
  before : List Token
  options : List (List Token)

/-- Where the reader of a glob is: the character before, whether brackets still make classes, the tokens
since the last brace or comma, the last one first, and the open braces, the innermost first. -/
structure Progress where
  previous : Option Char
  hasClasses : Bool
  tokens : List Token
  braces : List Braces

namespace Progress

def start : Progress := ⟨none, true, [], []⟩

def push (p : Progress) (c : Char) (ts : List Token) : Progress :=
  { p with previous := some c, tokens := ts.reverse ++ p.tokens }

def pushLiteral (p : Progress) (c : Char) : Progress :=
  p.push c (literal c)

def openBrace (p : Progress) : Progress :=
  { p with previous := some '\x7b', tokens := [], braces := ⟨p.tokens, []⟩ :: p.braces }

/-- Reads a comma: in braces it ends an option, elsewhere it stands for itself. -/
def comma (p : Progress) : Progress :=
  match p.braces with
  | [] => p.pushLiteral ','
  | b :: outer =>
    { p with
      previous := some ','
      tokens := []
      braces := { b with options := p.tokens.reverse :: b.options } :: outer }

def isOption (option : List Token) : Bool :=
  !option.all fun t => t.parts = 0

/-- Reads a closing brace, if one is open.  Options that have nothing to match do not count. -/
def closeBrace? (p : Progress) : Option Progress :=
  match p.braces with
  | [] => none
  | b :: outer =>
    let options := (p.tokens.reverse :: b.options).reverse.filter isOption
    some { p with
      previous := some '\x7d'
      tokens := .alternatives options :: b.before
      braces := outer }

def endsOption (p : Progress) (c : Char) : Bool :=
  !p.braces.isEmpty && (c = ',' || c = '\x7d')

/-- Whether two asterisks here are not part of a name: they follow a slash or start an option. -/
def isApart (p : Progress) : Bool :=
  p.previous = some '/' ||
    (!p.braces.isEmpty && (p.previous = some ',' || p.previous = some '\x7b'))

/-- Puts a token for directories in the place of the last one, unless that is for directories at an end
already. -/
def replaceLast (p : Progress) (c : Char) (token : Token) : Progress :=
  { p with
    previous := some c
    tokens :=
      match p.tokens with
      | .leadingDirectories :: _ => p.tokens
      | .trailingDirectories :: _ => p.tokens
      | ts => token :: ts.drop 1 }

/-- Reads two asterisks, in front of `cs`, and says what follows.  They stand for directories when they
are between slashes or ends, and a slash behind them belongs to them. -/
def directories (p : Progress) (cs : List Char) : Progress × List Char :=
  let plain : Progress := p.push '*' [.star, .star]
  match p.tokens, cs with
  | [], [] => (p.push '*' [.leadingDirectories], [])
  | [], c :: rest => if c = '/' then (p.push '/' [.leadingDirectories], rest) else (plain, c :: rest)
  | _ :: _, [] => (if p.isApart then p.replaceLast '*' .trailingDirectories else plain, [])
  | _ :: _, c :: rest =>
    if !p.isApart then (plain, c :: rest)
    else if c = '/' then (p.replaceLast '/' .innerDirectories, rest)
    else if p.endsOption c then (p.replaceLast '*' .trailingDirectories, c :: rest)
    else (plain, c :: rest)

theorem length_directories (p : Progress) (cs : List Char) :
    (p.directories cs).2.length ≤ cs.length := by
  unfold directories
  repeat' split
  all_goals simp

end Progress

/-- The tokens of a glob from here on; `none` is a fault.  A bracket without a closing one stands for
itself, and so do all brackets behind it. -/
def tokens (p : Progress) (cs : List Char) : Option (List Token) :=
  match cs with
  | [] => if p.braces.isEmpty then some p.tokens.reverse else none
  | c :: rest =>
    if c = '?' then tokens (p.push c [.any]) rest
    else if c = '*' then
      match rest with
      | '*' :: more => tokens (p.directories more).1 (p.directories more).2
      | more => tokens (p.push c [.star]) more
    else if c = '[' && p.hasClasses then
      match _h : classBody true false [] (negation rest).2 with
      | .closed ranges rest' => tokens (p.push ']' [classToken (negation rest).1 ranges]) rest'
      | .unclosed => tokens { p.pushLiteral c with hasClasses := false } rest
      | .reversed => none
    else if c = '\x7b' then tokens p.openBrace rest
    else if c = '\x7d' then
      match p.closeBrace? with
      | none => none
      | some p => tokens p rest
    else if c = ',' then tokens p.comma rest
    else if c = '\\' then
      match rest with
      | [] => none
      | d :: rest => tokens (p.pushLiteral d) rest
    else tokens (p.pushLiteral c) rest
termination_by cs.length
decreasing_by
  all_goals simp only [List.length_cons]
  · omega
  · have := p.length_directories more
    omega
  · omega
  · have h₁ := length_of_classBody _h
    have h₂ := length_negation rest
    omega
  all_goals omega

def read? (cs : List Char) : Option (List Token) :=
  tokens .start cs

end ApiLint.Glob
