import ApiLint.Disk

/-!
# Environments

A command runs in an `Environment`: a disk, the directory it is called in, and the directories of the
caller.  Paths are followed from the directory of the call.
-/

namespace ApiLint

structure Environment where
  disk : Disk
  directory : FilePath
  home : Option FilePath
  settingsDirectory : Option FilePath

namespace Environment

def here (e : Environment) : DiskPath :=
  e.directory.names

def read? (e : Environment) (p : FilePath) : Option String :=
  e.disk.read? e.here p

def isFile (e : Environment) (p : FilePath) : Bool :=
  e.disk.isFile e.here p

def isDirectory (e : Environment) (p : FilePath) : Bool :=
  e.disk.isDirectory e.here p

end Environment

end ApiLint
