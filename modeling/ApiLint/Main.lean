import ApiLint.CommandLine.Run

/-!
# The program

The outer layer of the command line: it looks at the places of the real disk that a call needs, runs
`Environment.run` on what it saw, looks again as long as documents were asked for that it had not seen,
and then writes and prints what came of it.
-/

namespace ApiLint.Program

def look (d : Disk) (place : DiskPath) : IO Disk := do
  let path := (← IO.currentDir) / (FilePath.ofDiskPath place).text
  if ← path.isDir then return d.addDirectory place
  else if ← path.pathExists then
    try
      return d.addFile place (← IO.FS.readFile path)
    catch _ => return d
  else return d

def lookAll (d : Disk) (places : List DiskPath) : IO Disk :=
  places.foldlM look d

def placeOf (e : Environment) (p : FilePath) : DiskPath :=
  (FilePath.canonical e.directory p).names

/-- Looks at what the paths lead to that are asked for once the ones before are known. -/
def lookInTurn (e : Environment) (asked : List (Environment → List FilePath)) : IO Environment :=
  asked.foldlM (fun e paths => do
    return { e with disk := ← lookAll e.disk ((paths e).map (placeOf e)) }) e

def lookForIgnoreFiles (e : Environment) (directory : DiskPath) : IO Environment := do
  let names := Ignore.topNames ++ [".ignore", ".gitignore"]
  let e := { e with disk := ← lookAll e.disk (names.map fun name => directory ++ [name]) }
  lookInTurn e
    [fun e => ((Ignore.linkedPath? e.disk directory).map Ignore.sharedFile).toList,
      fun e =>
        match Ignore.exclusions e directory with
        | .found path => [path]
        | _ => []]

def lookForOwnFile (e : Environment) : IO Environment :=
  lookInTurn e
    [fun e => (e.home.map Ignore.configurations).getD [], fun e => (Ignore.ownPath? e).toList]

/-- Looks at the JSON files and the ignore files of a directory and of all directories below it. -/
partial def lookBelow (e : Environment) (place : DiskPath) : IO Environment := do
  let path := (← IO.currentDir) / (FilePath.ofDiskPath place).text
  let mut e ← lookForIgnoreFiles { e with disk := ← look e.disk place } place
  for entry in ← path.readDir do
    let child := place ++ [entry.fileName]
    match (← entry.path.symlinkMetadata).type with
    | .dir => e ← lookBelow e child
    | _ => if isJsonName entry.fileName then e := { e with disk := ← look e.disk child }
  return e

/-- Looks at what a path of a check leads to, and at the ignore files above it. -/
def lookAt (e : Environment) (p : FilePath) : IO Environment := do
  let place := placeOf e p
  let e := { e with disk := ← look e.disk place }
  if e.disk.isDirectoryAt place then
    lookBelow (← (DiskPath.upTo place).foldlM lookForIgnoreFiles e) place
  else return e

def survey (e : Environment) (request : Request) : IO Environment := do
  let e := { e with disk := ← lookAll e.disk [e.here, e.here ++ [Environment.newName]] }
  let e ← lookInTurn e [fun e => request.settings.toList ++ e.ownSettings?.toList]
  match request.command with
  | .check c =>
    let e ← c.paths.foldlM lookAt (← lookForOwnFile e)
    lookInTurn e
      [fun e => Environment.projectNames.map fun name => (e.projectDirectory c.paths).join ⟨name⟩]
  | _ => return e

/-- Runs a call, and again as long as there is more to be seen of what it asked for. -/
partial def settle (e : Environment) (args : List String) : IO Outcome := do
  let outcome := e.run args
  let unseen := (outcome.requested.map FilePath.names).filter fun p => (e.disk.item? p).isNone
  let disk ← lookAll e.disk unseen
  if unseen.all fun p => (disk.item? p).isNone then return outcome
  else settle { e with disk } args

def environment : IO Environment := do
  return {
    disk := .empty
    directory := ⟨(← IO.currentDir).toString⟩
    home := (← IO.getEnv "HOME").map FilePath.mk
    settingsDirectory := (← IO.getEnv "OPENAPI_LINT_CONFIG_DIR").map FilePath.mk }

end ApiLint.Program

open ApiLint ApiLint.Program in
def main (args : List String) : IO UInt32 := do
  let e ← environment
  match Request.read? args with
  | none =>
    IO.eprintln "usage: openapi-lint <check|list-rules|init> [options]"
    return 2
  | some request =>
    let e ← survey e request
    let outcome ← settle e args
    if let .init _ := request.command then
      if outcome.status = 0 then IO.FS.writeFile Environment.newName Environment.newText
    IO.print outcome.output
    if let some fault := outcome.fault then IO.eprintln fault
    return outcome.status.toUInt32
