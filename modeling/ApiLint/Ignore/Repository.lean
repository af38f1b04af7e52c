import ApiLint.Environment
import ApiLint.Ignore.Pattern

/-!
# Ignore files of a directory

Every directory may hold ignore files for what lies below it: the file `.ignore`, the file `.gitignore`,
and the exclusions of the repository whose top it is.  The exclusions are in the directory `.git`.  If
`.git` is a file instead, it names another directory, and a file there leads to the directory that holds
the exclusions.
-/

namespace ApiLint.Ignore

def topNames : List String := [".git", ".jj"]

def isTop (d : Disk) (directory : DiskPath) : Bool :=
  topNames.any fun name => (d.item? (directory ++ [name])).isSome

/-! ### Exclusions -/

inductive Exclusions where
  | found (path : FilePath)
  | missing
  | unreadable
  deriving DecidableEq, Repr

def firstLine? (text : String) : Option (List Char) :=
  if text.isEmpty then none else (textLines text.toList).head?

/-- The words in front of the directory that a file `.git` names. -/
def linkMark : List Char := "gitdir: ".toList

def linkedPath? (d : Disk) (directory : DiskPath) : Option FilePath := do
  let line ← firstLine? (← d.text? (directory ++ [".git"]))
  if linkMark.isPrefixOf line then some ⟨String.ofList (line.drop linkMark.length)⟩ else none

/-- The file that leads from a linked directory to the one with the exclusions. -/
def sharedFile (linked : FilePath) : FilePath :=
  linked.join ⟨"commondir"⟩

/-- The directory with the exclusions, as the line of a linked directory gives it.  What starts with a
dot is seen from the linked directory. -/
def sharedPath (linked : FilePath) (line : List Char) : FilePath :=
  if line.head? = some '.' then linked.join ⟨String.ofList line⟩ else ⟨String.ofList line⟩

def exclusions (e : Environment) (directory : DiskPath) : Exclusions :=
  if (e.disk.text? (directory ++ [".git"])).isNone then
    .found (.ofDiskPath (directory ++ [".git", "info", "exclude"]))
  else
    match linkedPath? e.disk directory with
    | none => .missing
    | some linked =>
      if e.isDirectory (sharedFile linked) then .unreadable
      else
        match (e.read? (sharedFile linked)).bind firstLine? with
        | none => .missing
        | some line => .found ((sharedPath linked line).join ⟨"info/exclude"⟩)

/-! ### Kinds of ignore files -/

inductive Kind where
  | general
  | repository
  | exclusions
  deriving DecidableEq, Repr

/-- The ignore file that a path leads to; one that is not there says nothing. -/
def fileAt (e : Environment) (path : FilePath) : PatternFile :=
  ((e.read? path).map PatternFile.read).getD .empty

def fileIn (e : Environment) (directory : DiskPath) : Kind → PatternFile
  | .general => fileAt e (.ofDiskPath (directory ++ [".ignore"]))
  | .repository => fileAt e (.ofDiskPath (directory ++ [".gitignore"]))
  | .exclusions =>
    match exclusions e directory with
    | .found path => fileAt e path
    | .missing => .empty
    | .unreadable => .broken

def isFaulty (e : Environment) (directory : DiskPath) : Bool :=
  [Kind.general, .repository, .exclusions].any fun kind => (fileIn e directory kind).isFaulty

end ApiLint.Ignore
