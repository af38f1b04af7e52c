import ApiLint.Toml.Item
import ApiLint.Toml.Scalar

/-!
# Reading settings files

`Toml.read` reads the text of a settings file into its root table, or says that it is not one.  A line
is a header, a value under a path of names, a comment, or blank.  Arrays and tables inside a line may
nest up to a limit, as deep as a path may be long.
-/

namespace ApiLint.Toml

/-- The length that a path of names and the nesting of arrays and inline tables stay below. -/
def depthLimit : Nat := 80

/-! ### Names -/

def isNameChar (c : Char) : Bool :=
  c.isAlphanum || c = '_' || c = '-'

def name (cs : List Char) : Option (String × List Char) :=
  match cs with
  | [] => none
  | c :: rest =>
    if isNameChar c then
      some (String.ofList (c :: rest.takeWhile isNameChar), rest.dropWhile isNameChar)
    else lineString cs

def names (cs : List Char) : Option (List String × List Char) :=
  match name (skipGaps cs) with
  | none => none
  | some (k, rest) =>
    match skipGaps rest with
    | '.' :: more =>
      if more.length < cs.length then (names more).map fun r => (k :: r.1, r.2) else none
    | rest => some ([k], rest)
termination_by cs.length

def path (cs : List Char) : Option (List String × List Char) :=
  (names cs).filter fun r => r.1.length < depthLimit

/-! ### Values -/

/-- The elements of an array up to its closing bracket, after which nothing but blanks and comments may
separate them from commas.  A comma may follow the last. -/
def items (element : List Char → Option (Item × List Char)) (cs : List Char) :
    Option (List Item × List Char) :=
  match skipLines cs with
  | ']' :: rest => some ([], rest)
  | start =>
    match element start with
    | none => none
    | some (v, rest) =>
      match skipLines rest with
      | ']' :: rest => some ([v], rest)
      | ',' :: rest =>
        if rest.length < cs.length then (items element rest).map fun r => (v :: r.1, r.2) else none
      | _ => none
termination_by cs.length

def pair (element : List Char → Option (Item × List Char)) (cs : List Char) :
    Option ((List String × Item) × List Char) := do
  let (p, rest) ← path cs
  let rest ← char '=' rest
  let (v, rest) ← element (skipGaps rest)
  return ((p, v), rest)

def pairs (element : List Char → Option (Item × List Char)) (cs : List Char) :
    Option ((List (List String × Item)) × List Char) :=
  match pair element cs with
  | none => none
  | some (p, rest) =>
    match skipGaps rest with
    | '\x7d' :: rest => some ([p], rest)
    | ',' :: rest =>
      if rest.length < cs.length then (pairs element rest).map fun r => (p :: r.1, r.2) else none
    | _ => none
termination_by cs.length

/-- The inline table that goes on after its opening brace. -/
def inlineTable (element : List Char → Option (Item × List Char)) (cs : List Char) :
    Option (Item × List Char) :=
  match skipGaps cs with
  | '\x7d' :: rest => some (.inline [], rest)
  | start => do
    let (ps, rest) ← pairs element start
    let t ← Table.ofPairs ps
    return (.inline t, rest)

def numberOrDate (cs : List Char) : Option (Item × List Char) :=
  ((date cs).map fun r => (.date r.1, r.2)) <|>
    ((decimalFloat cs).map fun r => (.float r.1, r.2)) <|>
    ((wordFloat cs).map fun r => (.float r.1, r.2)) <|>
    (integer cs).map fun r => (.integer r.1, r.2)

def scalar (cs : List Char) : Option (Item × List Char) :=
  match cs with
  | '"' :: _ | '\'' :: _ => (string cs).map fun r => (.string r.1, r.2)
  | 't' :: 'r' :: 'u' :: 'e' :: rest => some (.bool true, rest)
  | 'f' :: 'a' :: 'l' :: 's' :: 'e' :: rest => some (.bool false, rest)
  | _ => numberOrDate cs

/-- A value, in which others may nest `levels` deep. -/
def value (levels : Nat) (cs : List Char) : Option (Item × List Char) :=
  match levels, cs with
  | 0, '[' :: _ | 0, '\x7b' :: _ => none
  | levels + 1, '[' :: rest => (items (value levels) rest).map fun r => (.array r.1, r.2)
  | levels + 1, '\x7b' :: rest => inlineTable (value levels) rest
  | _, _ => scalar cs

/-! ### Lines -/

inductive Line where
  | blank
  | table (path : List String)
  | element (path : List String)
  | pair (path : List String) (v : Item)

def line (cs : List Char) : Option (Line × List Char) :=
  match skipGaps cs with
  | '[' :: '[' :: rest => do
    let (p, rest) ← path rest
    let rest ← char ']' rest
    let rest ← char ']' rest
    let rest ← lineEnd? rest
    return (.element p, rest)
  | '[' :: rest => do
    let (p, rest) ← path rest
    let rest ← char ']' rest
    let rest ← lineEnd? rest
    return (.table p, rest)
  | start =>
    match lineEnd? start with
    | some rest => some (.blank, rest)
    | none => do
      let ((p, v), rest) ← pair (value (depthLimit - 1)) start
      let rest ← lineEnd? rest
      return (.pair p v, rest)

def lines (cs : List Char) : Option (List Line) :=
  if cs.isEmpty then some []
  else
    match line cs with
    | none => none
    | some (l, rest) =>
      if rest.length < cs.length then (lines rest).map (l :: ·) else none
termination_by cs.length

/-- The root table that lines put together.  The table or element opened last is at `opened`. -/
def build (opened : List String) (root : Table) : List Line → Option Table
  | [] => some root
  | .blank :: rest => build opened root rest
  | .table p :: rest => (root.openTable p).bind fun root => build p root rest
  | .element p :: rest => (root.openElement p).bind fun root => build p root rest
  | .pair p v :: rest => (root.putBelow opened p v).bind fun root => build opened root rest

def skipMark : List Char → List Char
  | '\uFEFF' :: cs => cs
  | cs => cs

def read (text : String) : Option Table :=
  (lines (skipMark text.toList)).bind (build [] [])

end ApiLint.Toml
