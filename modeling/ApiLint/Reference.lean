import ApiLint.FilePath
import ApiLint.Json.StringLiteral
import ApiLint.Value

/-!
# References

A reference object is an object whose member `$ref` is a string `file#/a/b`.  The part before the first
`#` names a file, and the part after it is a pointer: names and indexes with a slash in front of each,
percent-encoded, with `~1` for a slash and `~0` for a tilde.  `Reference.ofText?` takes a reference apart,
and `Value.follow?` walks its pointer.

An `Edge` is a reference that designates a node, a `ReferenceError` one that does not, and a
`ReferenceTable` holds all references of one document in the order they are written.
-/

namespace ApiLint

/-- A reference taken apart: its file, empty for the document it is written in, and the names and
indexes of its pointer. -/
structure Reference where
  file : String
  tokens : List String
  deriving DecidableEq, Repr

namespace Reference

/-- The value of one of the two places of a percent code.  The first may be a plus sign, which counts
nothing. -/
def percentValue? (a b : Char) : Option Nat :=
  if a = '+' then StringLiteral.hexDigit? b
  else do
    let a ← StringLiteral.hexDigit? a
    let b ← StringLiteral.hexDigit? b
    return a * 16 + b

/-- The bytes of a text in which `%` and two hexadecimal digits stand for one byte. -/
def percentBytes? : List Char → Option (List UInt8)
  | [] => some []
  | c :: cs =>
    if c = '%' then
      match cs with
      | a :: b :: rest => do
        let n ← percentValue? a b
        let bytes ← percentBytes? rest
        return n.toUInt8 :: bytes
      | _ => none
    else (percentBytes? cs).map (String.utf8EncodeChar c ++ ·)

/-- A text without percent codes; they must give UTF-8. -/
def percentDecode? (cs : List Char) : Option (List Char) :=
  if cs.contains '%' then do
    let bytes ← percentBytes? cs
    let text ← String.fromUTF8? ⟨bytes.toArray⟩
    return text.toList
  else some cs

def unescapeToken : List Char → List Char
  | [] => []
  | [c] => [c]
  | c :: d :: cs =>
    if c = '~' ∧ d = '1' then '/' :: unescapeToken cs
    else if c = '~' ∧ d = '0' then '~' :: unescapeToken cs
    else c :: unescapeToken (d :: cs)

def token? (cs : List Char) : Option String :=
  (percentDecode? cs).map fun ds => String.ofList (unescapeToken ds)

/-- What stands before and after the first `sep`; without one, nothing stands after it. -/
def cut (sep : Char) : List Char → List Char × List Char
  | [] => ([], [])
  | c :: cs => if c = sep then ([], cs) else (c :: (cut sep cs).1, (cut sep cs).2)

/-- Takes a reference apart; `none` if it is empty or its pointer is not one. -/
def ofText? (text : String) : Option Reference :=
  if text.isEmpty then none
  else
    let (file, fragment) := cut '#' text.toList
    match fragment with
    | [] => some ⟨String.ofList file, []⟩
    | c :: pointer =>
      if c = '/' then
        ((pointer.splitOn '/').mapM token?).map fun tokens => ⟨String.ofList file, tokens⟩
      else none

end Reference

/-! ### Pointers -/

/-- The index that a token denotes: decimal digits, with or without a plus sign. -/
def tokenIndex? (cs : List Char) : Option Nat :=
  let ds := match cs with
    | '+' :: rest => rest
    | _ => cs
  if !ds.isEmpty && ds.all Char.isDigit then some (digitsValue ds) else none

namespace Value

def tokenSegment? (v : Value) (token : String) : Option Segment :=
  match v with
  | object _ => some (.key token)
  | array _ => (tokenIndex? token.toList).map .index
  | _ => none

/-- The path that the tokens of a pointer lead along, if there is a node at its end. -/
def follow? (v : Value) : List String → Option Path
  | [] => some []
  | token :: tokens => do
    let s ← v.tokenSegment? token
    let c ← v.child? s
    let p ← c.follow? tokens
    return s :: p

def referenceKey : String := "$ref"

def reference? (v : Value) : Option String :=
  (v.member? referenceKey).bind string?

def references (v : Value) : List (Path × String) :=
  v.nodes.filterMap fun n => n.2.reference?.map fun r => (n.1, r)

end Value

/-! ### Tables -/

structure Location where
  document : DocumentId
  path : Path
  deriving DecidableEq, Repr

/-- Whether `l` is `t` or lies below it. -/
def Location.encloses (t l : Location) : Bool :=
  t.document = l.document && l.path.startsWith t.path

@[simp] theorem Location.encloses_self (t : Location) : t.encloses t = true := by
  simp [encloses]

theorem Location.encloses_child {t l : Location} (h : t.encloses l = true) (s : Segment) :
    t.encloses ⟨l.document, l.path.child s⟩ = true := by
  simp only [encloses, Bool.and_eq_true, decide_eq_true_eq] at h ⊢
  exact ⟨h.1, Path.startsWith_child h.2 s⟩

/-- A reference and the node it designates. -/
structure Edge where
  origin : Path
  reference : String
  target : Location
  deriving DecidableEq, Repr

inductive ReferenceProblem where
  | malformed
  | missingTarget
  | documentUnavailable (target : DocumentId) (message : String)
  deriving DecidableEq, Repr

structure ReferenceError where
  document : DocumentId
  origin : Path
  reference : String
  problem : ReferenceProblem
  deriving DecidableEq, Repr

def ReferenceError.message (e : ReferenceError) : String :=
  match e.problem with
  | .malformed => s!"{e.document.text}: malformed reference '{e.reference}' at {e.origin.text}"
  | .missingTarget =>
    s!"{e.document.text}: reference '{e.reference}' at {e.origin.text} points to a missing target"
  | .documentUnavailable target message =>
    s!"{e.document.text}: reference '{e.reference}' at {e.origin.text} needs {target.text}: {message}"

structure ReferenceTable where
  edges : List Edge
  unresolved : List ReferenceError
  deriving DecidableEq, Repr

namespace ReferenceTable

def edge? (t : ReferenceTable) (p : Path) : Option Edge :=
  t.edges.find? fun e => e.origin = p

def error? (t : ReferenceTable) (p : Path) : Option ReferenceError :=
  t.unresolved.find? fun e => e.origin = p

theorem mem_of_edge? {t : ReferenceTable} {p : Path} {e : Edge} (h : t.edge? p = some e) :
    e ∈ t.edges :=
  List.mem_of_find?_eq_some h

end ReferenceTable

end ApiLint
