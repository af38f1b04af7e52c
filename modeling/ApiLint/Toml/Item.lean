import ApiLint.Value

/-!
# Tables of a settings file

A settings file builds a tree of tables line by line.  A header `[a.b]` opens the table at a path, a
header `[[a.b]]` adds an element to the array of tables there, and a line `c.d = 1` puts a value at a
path below the open table.  Every table may be opened once, and every name set once: so a table
remembers how it came about.
-/

namespace ApiLint.Toml

/-- How a table came about: by a header of its own, as a part of the path in a header, or as a part of
the path in front of an equals sign. -/
inductive TableOrigin where
  | header
  | headerPath
  | keyPath
  deriving DecidableEq, Repr

/-- A value of a settings file.  A date is its text. -/
inductive Item where
  | string (s : String)
  | integer (i : Int)
  | float (f : Float)
  | bool (b : Bool)
  | date (text : String)
  | array (items : List Item)
  | inline (members : List (String × Item))
  | table (origin : TableOrigin) (members : List (String × Item))
  | tables (elements : List (List (String × Item)))

abbrev Table := List (String × Item)

namespace Table

/-! ### Paths -/

/-- Changes the table that a path leads to from a table of the given origin.  Missing tables on the way
are made with the origin `made`; an array of tables stands for its last element.  Along the path in
front of an equals sign no table may lie that has a header of its own. -/
def alter (made : TableOrigin) (change : TableOrigin → Table → Option Table) :
    List String → TableOrigin → Table → Option Table
  | [], origin, t => change origin t
  | k :: path, _, t =>
    match List.lookup k t with
    | none => (alter made change path made []).map fun u => assign k (.table made u) t
    | some (.table origin u) =>
      if made = .keyPath ∧ origin = .header then none
      else (alter made change path origin u).map fun u => assign k (.table origin u) t
    | some (.tables us) =>
      us.getLast?.bind fun u =>
        (alter made change path .header u).map fun u => assign k (.tables (us.dropLast ++ [u])) t
    | some _ => none

def alterParent (change : String → Table → Option Table) (path : List String) (root : Table) :
    Option Table :=
  path.getLast?.bind fun k => alter .headerPath (fun _ t => change k t) path.dropLast .header root

/-- Opens the table at a path, which must be new or known from the paths of headers only.  Its place among
the members is where it is opened, the last. -/
def openTable : List String → Table → Option Table :=
  alterParent fun k t =>
    let others := t.filter fun m => m.1 ≠ k
    match List.lookup k t with
    | none => some (others ++ [(k, .table .header [])])
    | some (.table .headerPath u) => some (others ++ [(k, .table .header u)])
    | some _ => none

def openElement : List String → Table → Option Table :=
  alterParent fun k t =>
    match List.lookup k t with
    | none => some (assign k (.tables [[]]) t)
    | some (.tables us) => some (assign k (.tables (us ++ [[]])) t)
    | some _ => none

/-- Puts a value at a path below a table with a header.  The table that gets it must be that table or
have come about the same way, and the name must be new. -/
def put (path : List String) (v : Item) (t : Table) : Option Table :=
  path.getLast?.bind fun k =>
    let change (origin : TableOrigin) (u : Table) : Option Table :=
      if (origin = .keyPath) ↔ path.dropLast = [] then none
      else if (List.lookup k u).isSome then none
      else some (u ++ [(k, v)])
    alter .keyPath change path.dropLast .header t

/-- Puts a value at a path below the table or the element that was opened last, at `opened`. -/
def putBelow (opened path : List String) (v : Item) (root : Table) : Option Table :=
  alter .headerPath (fun _ t => put path v t) opened .header root

/-- The table that lines put together. -/
def ofPairs (pairs : List (List String × Item)) : Option Table :=
  pairs.foldlM (fun t p => put p.1 p.2 t) []

end Table

/-! ### Values -/

/-- The name under which a date stands alone in an object. -/
def dateKey : String := "$__toml_private_datetime"

def sortMembers {α : Type} (ms : List (String × α)) : List (String × α) :=
  ms.mergeSort fun m n => decide (m.1 ≤ n.1)

mutual

/-- An item as a value, with the members of every table in the order of their names.  Infinity and what
is no number are null. -/
def Item.value : Item → Value
  | .string s => .string s
  | .integer i => .number (.int i)
  | .float f => if f.isFinite then .number (.ofFloat f) else .null
  | .bool b => .bool b
  | .date text => .object [(dateKey, .string text)]
  | .array items => .array (itemValues items)
  | .inline ms => .object (sortMembers (memberValues ms))
  | .table _ ms => .object (sortMembers (memberValues ms))
  | .tables ts => .array (tableValues ts)

def itemValues : List Item → List Value
  | [] => []
  | v :: vs => v.value :: itemValues vs

/-- The members of a table as values, in the order of writing. -/
def memberValues : List (String × Item) → List (String × Value)
  | [] => []
  | (k, v) :: ms => (k, v.value) :: memberValues ms

def tableValues : List (List (String × Item)) → List Value
  | [] => []
  | t :: ts => .object (sortMembers (memberValues t)) :: tableValues ts

end

end ApiLint.Toml
