import ApiLint.Ignore.OwnFile
import ApiLint.Ignore.Repository

/-!
# Walks

A walk goes through what lies below a directory, its root, which the caller named by some path.  What the
ignore files say of an entry decides whether it is passed.  The file `.ignore` of a directory always
counts; the file `.gitignore` and the exclusions count within a repository only, and so does the caller's
own ignore file.  Of the directories above an entry the nearest that says anything decides, and no
directory outside of the repository is asked for what only counts within.

The ignore files see the entry by its path.  From the root downwards that is the path in the words of the
caller; the path of the directory is taken off its front, where it stands there.

An ignored directory is not entered, whatever is said of what is below.  A walk does not start if an
ignore file above its root has a fault.
-/

namespace ApiLint.Ignore

/-- A walk through what lies below the directory at `root`, which the caller named by `path`. -/
structure Walk where
  root : DiskPath
  path : FilePath

/-! ### Paths as ignore files see them -/

/-- A path without a dot and a slash in front. -/
def withoutDot : List Char → List Char
  | '.' :: '/' :: rest => rest
  | cs => cs

def isDot (cs : List Char) : Bool :=
  (FilePath.mk (String.ofList cs)).components = [.current]

/-- A path as the ignore files of a directory see it, both in the words of a walk.  Nothing is taken off
the front if the directory is a single dot, or if the path is a name alone. -/
def seenFrom (directory path : FilePath) : String :=
  let base := withoutDot directory.text.toList
  let path := withoutDot (withoutDot path.text.toList)
  let seen :=
    if isDot base || !path.contains '/' || !base.isPrefixOf path then path
    else
      match path.drop base.length with
      | '/' :: rest => rest
      | rest => rest
  String.ofList seen

namespace Walk

def above (place : DiskPath) : List DiskPath :=
  (DiskPath.upTo place).dropLast.reverse

def pathOf (w : Walk) (place : DiskPath) : FilePath :=
  if place.length ≤ w.root.length then w.path
  else w.path.join ⟨Disk.relativePath w.root place⟩

/-- A directory above an entry, and the entry as its ignore files see it. -/
structure Level where
  directory : DiskPath
  seen : String

def levels (w : Walk) (place : DiskPath) : List Level :=
  (above place).map fun directory =>
    if w.root.length ≤ directory.length then
      ⟨directory, seenFrom (w.pathOf directory) (w.pathOf place)⟩
    else ⟨directory, Disk.relativePath directory place⟩

/-- The levels up to the first top of a repository; none if there is no one. -/
def withinRepository (d : Disk) : List Level → List Level
  | [] => []
  | level :: rest =>
    if isTop d level.directory then [level]
    else
      match withinRepository d rest with
      | [] => []
      | inner => level :: inner

/-- What the ignore files of a kind say, the nearest that says anything. -/
def verdictOf? (e : Environment) (kind : Kind) (levels : List Level) (isDirectory : Bool) :
    Option Verdict :=
  levels.findSome? fun level => (fileIn e level.directory kind).verdict? level.seen isDirectory

def verdict? (w : Walk) (e : Environment) (place : DiskPath) (isDirectory : Bool) : Option Verdict :=
  let levels := w.levels place
  let inner := withinRepository e.disk levels
  let own :=
    if inner.isEmpty then none
    else (ownFile e).verdict? (seenFrom e.directory (w.pathOf place)) isDirectory
  verdictOf? e .general levels isDirectory <|>
    verdictOf? e .repository inner isDirectory <|>
    verdictOf? e .exclusions inner isDirectory <|>
    own

def isIgnored (w : Walk) (e : Environment) (place : DiskPath) : Bool :=
  w.verdict? e place (e.disk.isDirectoryAt place) = some .ignored

def reaches (w : Walk) (e : Environment) (place : DiskPath) : Bool :=
  (DiskPath.upTo place).all fun p => p.length ≤ w.root.length || !w.isIgnored e p

/-- Whether a walk can start: no ignore file above its root has a fault. -/
def starts (w : Walk) (e : Environment) : Bool :=
  (above w.root).all fun directory => !isFaulty e directory

end Walk

end ApiLint.Ignore
