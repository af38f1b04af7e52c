import ApiLint.Node
import ApiLint.Query.Syntax
import ApiLint.Text.Blank

/-!
# What a query selects

`Query.run` runs a query from a node and lists the nodes it comes to, each with its path from there.
Against a raw node it sees the tree as written; against a node of a view every step, member access in
filters included, follows references.

In a filter, `none` stands for what is not there.  Comparisons are those of a language in which numbers,
texts and truth values compare as numbers where their kinds differ.
-/

namespace ApiLint.Query

structure Match where
  path : Path
  node : Node

/-! ### Comparisons -/

def truthy : Option Value → Bool
  | none | some .null => false
  | some (.bool b) => b
  | some (.number n) => n.toFloat != 0 && !n.toFloat.isNaN
  | some (.string s) => !s.isEmpty
  | some (.array _) | some (.object _) => true

/-- The number that a value counts as; a text counts as the number it denotes between blanks, and as zero
when there is nothing between them. -/
def toNumber? : Value → Option Float
  | .number n => some n.toFloat
  | .bool b => some (if b then 1 else 0)
  | .null => some 0
  | .string s =>
    let cs := trimBlanks s.toList
    if cs.isEmpty then some 0 else readFloat? cs
  | .array _ | .object _ => none

/-- Equality of kind and value.  Objects and arrays equal nothing. -/
def strictEqual : Option Value → Option Value → Bool
  | none, none => true
  | some (.number m), some (.number n) => m.toFloat == n.toFloat
  | some .null, some .null => true
  | some (.bool a), some (.bool b) => a == b
  | some (.string s), some (.string t) => s == t
  | _, _ => false

def isScalar : Value → Bool
  | .number _ | .string _ | .bool _ => true
  | _ => false

def sameKind : Value → Value → Bool
  | .number _, .number _ | .string _, .string _ | .bool _, .bool _ => true
  | _, _ => false

def isNothing : Option Value → Bool
  | none | some .null => true
  | _ => false

/-- Equality where null equals what is not there, and scalars of different kinds are compared as
numbers. -/
def looseEqual (a b : Option Value) : Bool :=
  if isNothing a || isNothing b then isNothing a && isNothing b
  else
    match a, b with
    | some v, some w =>
      if isScalar v && isScalar w && !sameKind v w then
        match toNumber? v, toNumber? w with
        | some x, some y => x == y
        | _, _ => false
      else strictEqual a b
    | _, _ => strictEqual a b

def orderFloats? (x y : Float) : Option Ordering :=
  if x < y then some .lt else if x == y then some .eq else if y < x then some .gt else none

/-- The order of two values, if they have one: texts by code points, all else as numbers. -/
def order? : Option Value → Option Value → Option Ordering
  | some (.string s), some (.string t) => some (compare s t)
  | some v, some w => do
    let x ← toNumber? v
    let y ← toNumber? w
    orderFloats? x y
  | _, _ => none

def Comparison.holds (op : Comparison) (a b : Option Value) : Bool :=
  match op with
  | strictEqual => Query.strictEqual a b
  | strictUnequal => !Query.strictEqual a b
  | looseEqual => Query.looseEqual a b
  | looseUnequal => !Query.looseEqual a b
  | less => order? a b == some .lt
  | atMost => order? a b == some .lt || order? a b == some .eq
  | greater => order? a b == some .gt
  | atLeast => order? a b == some .gt || order? a b == some .eq

/-! ### Filters -/

def Literal.value? : Literal → Option Value
  | undefined => none
  | null => some .null
  | bool b => some (.bool b)
  | number n => some (.number n)
  | string s => some (.string s)

/-- The position that an index means among `length` elements; a negative one counts from the end. -/
def position? (length : Nat) (i : Int) : Option Nat :=
  if i < 0 then if i.natAbs ≤ length then some (length - i.natAbs) else none
  else if i.natAbs < length then some i.natAbs else none

/-- The name or index that a child stands under, as a value. -/
def segmentValue : Segment → Value
  | .key k => .string k
  | .index i => .number (.int i)

def Accessor.node? (a : Accessor) (n : Node) : Option Node :=
  match a, n.value with
  | key k, .object _ => n.child? (.key k)
  | index i, .array items => (position? items.length i).bind fun j => n.child? (.index j)
  | index i, .object _ => n.child? (.key (toString i))
  | _, _ => none

def length? : Value → Option Nat
  | .array items => some items.length
  | .string s => some s.length
  | _ => none

/-- What accessors lead to.  The last of them may ask for the length of an array or a text. -/
def access (n : Node) : List Accessor → Option Value
  | [] => some n.value
  | [.key k] =>
    if k = "length" then
      match length? n.value with
      | some l => some (.number (.int l))
      | none => ((Accessor.key k).node? n).map Node.value
    else ((Accessor.key k).node? n).map Node.value
  | a :: as => (a.node? n).bind fun c => access c as

/-- The value of a filter for the child `n` that stands under `s`. -/
def Expr.eval (n : Node) (s : Segment) : Expr → Option Value
  | current accessors => access n accessors
  | property => some (segmentValue s)
  | literal l => l.value?
  | not e => some (.bool (!truthy (e.eval n s)))
  | and e f => let v := e.eval n s; if truthy v then f.eval n s else v
  | or e f => let v := e.eval n s; if truthy v then v else f.eval n s
  | compare op e f => some (.bool (op.holds (e.eval n s) (f.eval n s)))

/-! ### Steps -/

def Selector.pick (n : Node) : Selector → List (Segment × Node)
  | name k => ((n.child? (.key k)).map fun c => (.key k, c)).toList
  | index i =>
    match n.value with
    | .array items =>
      ((position? items.length i).bind fun j =>
        (n.child? (.index j)).map fun c => (.index j, c)).toList
    | _ => []
  | wildcard => n.children
  | filter e => n.children.filter fun c => truthy (e.eval c.2 c.1)

/-- The children of a match that selectors pick, selector by selector. -/
def select (selectors : List Selector) (m : Match) : List Match :=
  selectors.flatMap fun s => (s.pick m.node).map fun c => ⟨m.path.child c.1, c.2⟩

def Step.apply (root : Node) (ms : List Match) : Step → List Match
  | child selectors => ms.flatMap (select selectors)
  | descendant selectors =>
    ms.flatMap fun m =>
      (m.node.preorder m.path).flatMap fun d => select selectors ⟨d.1, d.2⟩
  | parent =>
    (ms.filterMap fun m => m.path.parent?).eraseDups.filterMap fun p =>
      (root.at? p).map fun n => ⟨p, n⟩

end Query

/-- The nodes that a query leads to from `root`, with their paths from there. -/
def Query.run (q : Query) (root : Node) : List Query.Match :=
  q.steps.foldl (Query.Step.apply root) [⟨[], root⟩]

end ApiLint
