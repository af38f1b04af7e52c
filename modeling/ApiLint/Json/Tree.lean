import ApiLint.Json.Written

/-!
# Values with their places

A `Tree` is what reading a text gives: the value that the text denotes, and the spans of its nodes by
path.
-/

namespace ApiLint

structure Tree where
  value : Value
  positions : PositionIndex

namespace Tree

def ofWritten (w : Written) : Tree :=
  ⟨w.value, w.record [] .empty⟩

def span? (t : Tree) (p : Path) : Option Span :=
  t.positions.get? p

/-- Every node's path and span, a node before its children. -/
def spans (t : Tree) : List (Path × Span) :=
  t.value.nodes.filterMap fun n => (t.span? n.1).map fun s => (n.1, s)

end Tree

end ApiLint
