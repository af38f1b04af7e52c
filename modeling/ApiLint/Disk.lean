import ApiLint.Graph

/-!
# Disks

A `Disk` is a tree of directories with the texts of their files, each under the names that lead to it
from the root.  `Disk.locate?` follows a path step by step, so that everything in front of a slash has
to be a directory; this tells it from `FilePath.canonical`, which looks at the path alone.
-/

namespace ApiLint

inductive DiskItem where
  | file (text : String)
  | directory
  deriving DecidableEq, Repr

/-- The names that lead from the root to a place of a disk. -/
abbrev DiskPath := List String

/-- Name by name; a place comes before those inside it. -/
def DiskPath.compare : DiskPath → DiskPath → Ordering
  | [], [] => .eq
  | [], _ :: _ => .lt
  | _ :: _, [] => .gt
  | k :: p, l :: q => (Ord.compare k l).then (DiskPath.compare p q)

/-- A tree of directories, by the places of its items. -/
structure Disk where
  items : List (DiskPath × DiskItem)

namespace FilePath

def names (p : FilePath) : DiskPath :=
  p.components.filterMap fun c =>
    match c with
    | .name n => some (String.ofList n)
    | _ => none

def ofDiskPath (names : DiskPath) : FilePath :=
  ofNames true (names.map String.toList)

end FilePath

/-- A place and those above it, the root first. -/
def DiskPath.upTo (p : DiskPath) : List DiskPath :=
  (List.range (p.length + 1)).map fun n => p.take n

namespace Disk

def empty : Disk := ⟨[]⟩

def item? (d : Disk) (p : DiskPath) : Option DiskItem :=
  if p.isEmpty then some .directory else (d.items.find? fun i => i.1 = p).map Prod.snd

def put (d : Disk) (p : DiskPath) (item : DiskItem) : Disk :=
  ⟨(p, item) :: d.items.filter fun i => i.1 ≠ p⟩

/-- Makes a directory and those above it, where there is nothing yet. -/
def addDirectory (d : Disk) (p : DiskPath) : Disk :=
  (DiskPath.upTo p).foldl (fun d q => if (d.item? q).isSome then d else d.put q .directory) d

/-- Makes a file and the directories above it, or replaces its text. -/
def addFile (d : Disk) (p : DiskPath) (text : String) : Disk :=
  (d.addDirectory p.dropLast).put p (.file text)

def text? (d : Disk) (p : DiskPath) : Option String :=
  match d.item? p with
  | some (.file text) => some text
  | _ => none

def isDirectoryAt (d : Disk) (p : DiskPath) : Bool :=
  d.item? p = some .directory

/-! ### Following paths -/

/-- The place that some parts of a path lead to from a place. -/
def walk? (d : Disk) (place : DiskPath) : List (List Char) → Option DiskPath
  | [] => some place
  | part :: parts =>
    if d.isDirectoryAt place then
      if part = [] || part = ['.'] then d.walk? place parts
      else if part = ['.', '.'] then d.walk? place.dropLast parts
      else
        let next := place ++ [String.ofList part]
        if (d.item? next).isSome then d.walk? next parts else none
    else none

def locate? (d : Disk) (here : DiskPath) (p : FilePath) : Option DiskPath :=
  if p.text.isEmpty then none
  else d.walk? (if p.isAbsolute then [] else here) (p.text.toList.splitOn '/')

def isDirectory (d : Disk) (here : DiskPath) (p : FilePath) : Bool :=
  (d.locate? here p).any d.isDirectoryAt

def read? (d : Disk) (here : DiskPath) (p : FilePath) : Option String :=
  (d.locate? here p).bind d.text?

def isFile (d : Disk) (here : DiskPath) (p : FilePath) : Bool :=
  (d.read? here p).isSome

def relativePath (root place : DiskPath) : String :=
  "/".intercalate (place.drop root.length)

/-! ### Files for a graph -/

inductive Absence where
  | missing
  | belowFile
  | isDirectory
  | tooLong
  | zeroCharacter
  deriving DecidableEq, Repr

def Absence.message : Absence → String
  | .missing => "No such file or directory (os error 2)"
  | .belowFile => "Not a directory (os error 20)"
  | .isDirectory => "Is a directory (os error 21)"
  | .tooLong => "File name too long (os error 36)"
  | .zeroCharacter => "file name contained an unexpected NUL byte"

def nameLimit : Nat := 255

/-- The number of bytes that a path stays below. -/
def pathLimit : Nat := 4096

/-- Why there is no file where some names lead from a place. -/
def absenceBelow (d : Disk) (place : DiskPath) : List String → Absence
  | [] => if d.isDirectoryAt place then .isDirectory else .missing
  | name :: names =>
    if !d.isDirectoryAt place then .belowFile
    else if nameLimit < name.utf8ByteSize then .tooLong
    else if (d.item? (place ++ [name])).isNone then .missing
    else d.absenceBelow (place ++ [name]) names

/-- Why there is no file at a place.  A path that no place can have is refused before anything else. -/
def absence (d : Disk) (p : DiskPath) : Absence :=
  if p.any fun name => name.contains '\x00' then .zeroCharacter
  else if pathLimit ≤ (FilePath.ofDiskPath p).text.utf8ByteSize then .tooLong
  else d.absenceBelow [] p

/-- The files of a disk, by absolute path. -/
def fileSystem (d : Disk) : FileSystem where
  files := d.items.filterMap fun i =>
    match i.2 with
    | .file text => some (.ofDiskPath i.1, text)
    | .directory => none
  absent p := (d.absence p.names).message

end Disk

end ApiLint
