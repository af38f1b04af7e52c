import ApiLint.Value

/-!
# The syntax of queries

A query is a list of steps from the root.  A child step applies selectors to the children of each node, a
descendant step applies them to the children of each node and of everything below it, and a parent step
goes up.  A filter is an expression about one child: `@` is the child, `@property` the name or index it
stands under.
-/

namespace ApiLint.Query

inductive Comparison where
  | strictEqual
  | strictUnequal
  | looseEqual
  | looseUnequal
  | atMost
  | atLeast
  | less
  | greater
  deriving DecidableEq, Repr

inductive Literal where
  | undefined
  | null
  | bool (b : Bool)
  | number (n : Number)
  | string (s : String)
  deriving DecidableEq, Repr

inductive Accessor where
  | key (k : String)
  | index (i : Int)
  deriving DecidableEq, Repr

inductive Expr where
  | current (accessors : List Accessor)
  | property
  | literal (l : Literal)
  | not (e : Expr)
  | and (e f : Expr)
  | or (e f : Expr)
  | compare (op : Comparison) (e f : Expr)
  deriving DecidableEq, Repr

inductive Selector where
  | name (k : String)
  | index (i : Int)
  | wildcard
  | filter (e : Expr)
  deriving DecidableEq, Repr

inductive Step where
  | child (selectors : List Selector)
  | descendant (selectors : List Selector)
  | parent
  deriving DecidableEq, Repr

def Comparison.symbol : Comparison → List Char
  | strictEqual => "===".toList
  | strictUnequal => "!==".toList
  | looseEqual => "==".toList
  | looseUnequal => "!=".toList
  | atMost => "<=".toList
  | atLeast => ">=".toList
  | less => "<".toList
  | greater => ">".toList

/-- The comparisons, those with longer symbols first, so that none is taken for the start of another. -/
def Comparison.all : List Comparison :=
  [strictEqual, strictUnequal, looseEqual, looseUnequal, atMost, atLeast, less, greater]

end ApiLint.Query

namespace ApiLint

/-- A query, with the text it was read from. -/
structure Query where
  text : String
  steps : List Query.Step
  deriving DecidableEq, Repr

end ApiLint
