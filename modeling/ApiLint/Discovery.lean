import ApiLint.Ignore.Walk

/-!
# Finding documents

A path that leads to a directory stands for the JSON files that can be reached below it, sorted by the
names on the way; any other path stands for itself.  Files below directories may be excluded by pieces
of text in their paths.  A directory whose path is a hyphen is taken for the standard input, which holds
no documents.
-/

namespace ApiLint

/-- Whether a file name has the extension of JSON files; something has to stand in front of it. -/
def isJsonName (name : String) : Bool :=
  ".json".toList.isSuffixOf name.toList && name ≠ ".json"

def standsIn (piece : List Char) : List Char → Bool
  | [] => piece.isEmpty
  | c :: cs => piece.isPrefixOf (c :: cs) || standsIn piece cs

/-- Whether a text contains a piece; the empty piece does not count. -/
def containsPiece (piece text : String) : Bool :=
  !piece.isEmpty && standsIn piece.toList text.toList

def FilePath.isStandardInput (p : FilePath) : Bool :=
  p.components = [.name ['-']]

namespace Environment

def jsonFiles (e : Environment) (w : Ignore.Walk) : List DiskPath :=
  let found := e.disk.items.filterMap fun i =>
    if (e.disk.text? i.1).isSome && w.root.isPrefixOf i.1 && isJsonName (i.1.getLastD "")
        && w.reaches e i.1 then
      some i.1
    else none
  found.mergeSort fun p q => (p.compare q).isLE

/-- The documents that a path stands for; `none` if it leads to a directory where no walk can start. -/
def documentsFor? (e : Environment) (excluded : List String) (p : FilePath) : Option (List FilePath) :=
  match (e.disk.locate? e.here p).filter e.disk.isDirectoryAt with
  | none => some [p]
  | some root =>
    let w : Ignore.Walk := ⟨root, p⟩
    if p.isStandardInput then some []
    else if !w.starts e then none
    else
      some (((e.jsonFiles w).map (Disk.relativePath root)).filterMap fun relative =>
        if excluded.any fun piece => containsPiece piece relative then none
        else some (p.join ⟨relative⟩))

/-- The documents that several paths stand for, or the first path that leads to a directory where no walk
can start. -/
def documents (e : Environment) (excluded : List String) :
    List FilePath → Except FilePath (List FilePath)
  | [] => .ok []
  | p :: ps =>
    match e.documentsFor? excluded p with
    | none => .error p
    | some found => (e.documents excluded ps).map (found ++ ·)

end Environment

end ApiLint
