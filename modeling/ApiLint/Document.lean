import ApiLint.FilePath
import ApiLint.Json.Reader

/-!
# Documents

A `Document` is a text that has been read: its id, the text, the value and the spans of its nodes.  A
path that leads nowhere still has a nearest span, that of the last node on the way.
-/

namespace ApiLint

structure Document where
  id : DocumentId
  content : String
  value : Value
  positions : PositionIndex

namespace Document

def read (id : DocumentId) (content : String) : Except Json.ReadError Document :=
  (Json.read content).map fun tree => ⟨id, content, tree.value, tree.positions⟩

def valueAt? (d : Document) (p : Path) : Option Value :=
  d.value.get? p

def span? (d : Document) (p : Path) : Option Span :=
  d.positions.get? p

/-- The longest part of `p` that has a span, and that span. -/
def nearestSpan (d : Document) (p : Path) : Path × Span :=
  (d.positions.nearest? p).getD ([], .zero)

def missingMessage (d : Document) (p : Path) : String :=
  s!"no position recorded for {p.text} in {d.id.text}"

end Document

end ApiLint
