/-!
# Places in a text

A `Position` is a point between two characters of a text: its line, its column and its byte offset.
Lines and columns count from one, and a column counts characters, not bytes.  `Position.after` moves
a point over one character, and `Position.past` does so without looking for a line feed, which is how
a point moves inside a string literal.  A `Span` runs from the first character of a value to just past
its last.
-/

namespace ApiLint

structure Position where
  line : Nat
  column : Nat
  offset : Nat
  deriving DecidableEq, Repr

namespace Position

def start : Position := ⟨1, 1, 0⟩

/-- The point no text has. -/
def zero : Position := ⟨0, 0, 0⟩

/-- The point just past `c`, on the same line. -/
def past (p : Position) (c : Char) : Position :=
  ⟨p.line, p.column + 1, p.offset + c.utf8Size⟩

/-- The point just past `c`, which starts a new line if it is a line feed. -/
def after (p : Position) (c : Char) : Position :=
  if c = '\n' then ⟨p.line + 1, 1, p.offset + 1⟩ else p.past c

def pastAll (p : Position) (cs : List Char) : Position :=
  cs.foldl past p

@[simp] theorem pastAll_nil (p : Position) : p.pastAll [] = p := rfl

@[simp] theorem pastAll_cons (p : Position) (c : Char) (cs : List Char) :
    p.pastAll (c :: cs) = (p.past c).pastAll cs := rfl

end Position

/-- The range of one value, from its first character to just past its last. -/
structure Span where
  first : Position
  last : Position
  deriving DecidableEq, Repr

namespace Span

def zero : Span := ⟨.zero, .zero⟩

/-- Length in bytes. -/
def size (s : Span) : Nat :=
  s.last.offset - s.first.offset

end Span

end ApiLint
