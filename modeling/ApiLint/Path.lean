/-!
# Paths into a value

A `Path` is a list of segments, each a member name or an element index, read from the root down.  It
is printed in three ways: as canonical text such as `$.paths['/a'].get[0]` (`Path.text`), with dots
between the segments (`Path.dotted`), and as a pointer into the same document (`Path.pointer`).  Paths
are ordered segment by segment, and an index comes before any member name.
-/

namespace ApiLint

inductive Segment where
  | index (i : Nat)
  | key (k : String)
  deriving DecidableEq, Repr

/-- The steps from the root down to a node; no steps stand for the root itself. -/
abbrev Path := List Segment

namespace Segment

def text : Segment → String
  | index i => toString i
  | key k => k

def key? : Segment → Option String
  | index _ => none
  | key k => some k

def index? : Segment → Option Nat
  | index i => some i
  | key _ => none

/-- Indexes by size, then member names by code points. -/
def compare : Segment → Segment → Ordering
  | index i, index j => Ord.compare i j
  | index _, key _ => .lt
  | key _, index _ => .gt
  | key k, key l => Ord.compare k l

end Segment

/-! ### Texts of a path -/

/-- A character that may start a member name written without quotes. -/
def isNameStart (c : Char) : Bool :=
  c.isAlpha || c = '_' || c = '$'

/-- A character that may follow in a member name written without quotes. -/
def isNameRest (c : Char) : Bool :=
  c.isAlphanum || c = '_' || c = '$'

def isPlainName : List Char → Bool
  | [] => false
  | c :: cs => isNameStart c && cs.all isNameRest

/-- A backslash in front of every backslash and single quote. -/
def escapeName : List Char → List Char
  | [] => []
  | c :: cs => if c = '\\' || c = '\'' then '\\' :: c :: escapeName cs else c :: escapeName cs

/-- A tilde as `~0` and a slash as `~1`. -/
def escapeToken : List Char → List Char
  | [] => []
  | c :: cs =>
    if c = '~' then '~' :: '0' :: escapeToken cs
    else if c = '/' then '~' :: '1' :: escapeToken cs
    else c :: escapeToken cs

namespace Segment

/-- How canonical text writes a segment. -/
def chars : Segment → List Char
  | index i => '[' :: (Nat.toDigits 10 i ++ [']'])
  | key k =>
    if isPlainName k.toList then '.' :: k.toList
    else '[' :: '\'' :: (escapeName k.toList ++ ['\'', ']'])

/-- How a pointer writes a segment. -/
def token : Segment → List Char
  | index i => Nat.toDigits 10 i
  | key k => escapeToken k.toList

end Segment

namespace Path

def child (p : Path) (s : Segment) : Path :=
  p ++ [s]

def parent? (p : Path) : Option Path :=
  if p.isEmpty then none else some p.dropLast

/-- Whether `q` leads to `p` or to a node above it. -/
def startsWith (p q : Path) : Bool :=
  q.isPrefixOf p

/-- The member name that callers may put in front of a path to stand for the root. -/
def rootMarker : String := "$"

def withoutMarker : Path → Path
  | .key k :: rest => if k = rootMarker then rest else .key k :: rest
  | p => p

/-- Segment by segment; a path comes before the longer ones that it starts. -/
def compare : Path → Path → Ordering
  | [], [] => .eq
  | [], _ :: _ => .lt
  | _ :: _, [] => .gt
  | s :: p, t :: q => (s.compare t).then (compare p q)

def text (p : Path) : String :=
  String.ofList ('$' :: p.flatMap Segment.chars)

def dotted (p : Path) : String :=
  ".".intercalate (p.map Segment.text)

def pointer (p : Path) : String :=
  String.ofList ('#' :: p.flatMap fun s => '/' :: s.token)

theorem child_eq (p : Path) (s : Segment) : p.child s = p ++ [s] := rfl

theorem startsWith_iff {p q : Path} : p.startsWith q = true ↔ q <+: p := by
  simp [startsWith]

@[simp] theorem startsWith_self (p : Path) : p.startsWith p = true :=
  startsWith_iff.2 (List.prefix_refl p)

theorem startsWith_child {p q : Path} (h : p.startsWith q = true) (s : Segment) :
    (p.child s).startsWith q = true :=
  startsWith_iff.2 ((startsWith_iff.1 h).trans (List.prefix_append p [s]))

end Path

end ApiLint
