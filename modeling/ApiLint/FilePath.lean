/-!
# File paths

A `FilePath` is a path as written, with slashes between its parts.  Two paths lead to the same place
when their `components` agree: empty parts and single dots between others say nothing.  `canonical`
resolves a path against a base directory and takes out the dots and double dots, without asking any
storage; going up from the root stays at the root.
-/

namespace ApiLint

structure FilePath where
  text : String
  deriving DecidableEq, Repr, Ord

/-- A part of a path that matters. -/
inductive Component where
  | root
  | current
  | up
  | name (chars : List Char)
  deriving DecidableEq, Repr

namespace Component

/-- What a part of a path means after the first. -/
def ofPart? (part : List Char) : Option Component :=
  if part = [] || part = ['.'] then none
  else if part = ['.', '.'] then some up
  else some (name part)

end Component

namespace FilePath

def isAbsolute (p : FilePath) : Bool :=
  p.text.toList.head? = some '/'

/-- The components of a path: a root if it starts with a slash, a single dot only at the start. -/
def components (p : FilePath) : List Component :=
  match p.text.toList.splitOn '/' with
  | [] => []
  | part :: parts =>
    let first := if p.isAbsolute then [.root] else if part = ['.'] then [.current] else []
    first ++ (part :: parts).filterMap Component.ofPart?

/-- `q` as seen from the directory `p`; an absolute path stays as it is. -/
def join (p q : FilePath) : FilePath :=
  if q.isAbsolute then q
  else if p.text.isEmpty || p.text.toList.getLast? = some '/' then ⟨p.text ++ q.text⟩
  else ⟨p.text ++ "/" ++ q.text⟩

/-- The names left when each double dot has taken back the name before it. -/
def settle (names : List (List Char)) : List Component → List (List Char)
  | [] => names
  | .root :: cs | .current :: cs => settle names cs
  | .up :: cs => settle names.dropLast cs
  | .name n :: cs => settle (names ++ [n]) cs

def ofNames (absolute : Bool) (names : List (List Char)) : FilePath :=
  ⟨String.ofList ((if absolute then ['/'] else []) ++ ['/'].intercalate names)⟩

/-- The path without dots and double dots. -/
def normal (p : FilePath) : FilePath :=
  ofNames p.isAbsolute (settle [] p.components)

def canonical (base p : FilePath) : FilePath :=
  (if p.isAbsolute then p else base.join p).normal

/-- A part that says nothing at the end of a path. -/
def isIdle (part : List Char) : Bool :=
  part = [] || part = ['.']

/-- The parts without idle ones at the end.  A single dot at the start of a relative path counts. -/
def trimParts (absolute : Bool) (parts : List (List Char)) : List (List Char) :=
  match parts with
  | [] => []
  | first :: rest =>
    match (rest.reverse.dropWhile isIdle).reverse with
    | [] => if first = [] || (absolute && isIdle first) then [] else [first]
    | rest => first :: rest

/-- The directory that a path names an entry of: the text up to the last part that counts. -/
def parent? (p : FilePath) : Option FilePath :=
  let body := if p.isAbsolute then p.text.toList.drop 1 else p.text.toList
  match trimParts p.isAbsolute (body.splitOn '/') with
  | [] => none
  | parts =>
    let above := trimParts p.isAbsolute parts.dropLast
    some ⟨String.ofList ((if p.isAbsolute then ['/'] else []) ++ ['/'].intercalate above)⟩

/-- The directory a path lies in; none is the empty path. -/
def directory (p : FilePath) : FilePath :=
  p.parent?.getD ⟨""⟩

end FilePath

abbrev DocumentId := FilePath

end ApiLint
