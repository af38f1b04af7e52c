import ApiLint.FilePath
import ApiLint.Ignore.Glob
import ApiLint.Text.Blank

/-!
# Lines of an ignore file

Each line of an ignore file is a glob for paths below the directory of the file.  A line that starts with
an exclamation mark takes paths back in, and one that ends with a slash is about directories alone.  A
glob without a slash inside is about names at any depth.  Of the lines that match a path, the last
decides.

A line that is no glob says nothing, but makes the file faulty; a glob that nests too deep takes the
meaning from the whole file.
-/

namespace ApiLint.Ignore

inductive Verdict where
  | ignored
  | kept
  deriving DecidableEq, Repr

/-- A line of an ignore file. -/
structure Pattern where
  verdict : Verdict
  directoriesOnly : Bool
  glob : List Glob.Token

namespace Pattern

/-- What follows the mark of a verdict and the slash in front of a line, and whether that slash was there.
A backslash in front of a mark takes its meaning. -/
def marks (line : List Char) : Verdict × Bool × List Char :=
  let anchored (v : Verdict) (rest : List Char) : Verdict × Bool × List Char :=
    match rest with
    | '/' :: rest => (v, true, rest)
    | _ => (v, false, rest)
  match line with
  | '\\' :: '!' :: rest => (.ignored, false, '!' :: rest)
  | '\\' :: '#' :: rest => (.ignored, false, '#' :: rest)
  | '!' :: rest => anchored .kept rest
  | _ => anchored .ignored line

def withoutSlash (line : List Char) : Bool × List Char :=
  match line.reverse with
  | '/' :: '\\' :: rest => (true, rest.reverse)
  | '/' :: rest => (true, rest.reverse)
  | _ => (false, line)

def globText (anchored : Bool) (line : List Char) : List Char :=
  let atAnyDepth := !anchored && !line.contains '/' && line ≠ ['*', '*']
  let glob := if atAnyDepth then '*' :: '*' :: '/' :: line else line
  if ['/', '*', '*'].isSuffixOf glob then glob ++ ['/', '*'] else glob

/-- A line without the blanks at its end, unless the last of them is a space that a backslash keeps. -/
def trimmed (line : List Char) : List Char :=
  if ['\\', ' '].isSuffixOf line then line else (line.reverse.dropWhile isBlank).reverse

/-- The pattern of a line, if it is no comment and not blank; the outer `none` is a fault. -/
def ofLine? (line : List Char) : Option (Option Pattern) :=
  if line.head? = some '#' || (trimmed line).isEmpty then some none
  else
    let (verdict, anchored, rest) := marks (trimmed line)
    let (directoriesOnly, rest) := withoutSlash rest
    (Glob.read? (globText anchored rest)).map fun glob => some ⟨verdict, directoriesOnly, glob⟩

def isAbout (p : Pattern) (path : String) (isDirectory : Bool) : Bool :=
  (isDirectory || !p.directoriesOnly) && Glob.isMatch p.glob path

end Pattern

/-- The lines of a text, without what ends them: a line feed, and a carriage return in front of it. -/
def textLines (cs : List Char) : List (List Char) :=
  let pieces := cs.splitOn '\n'
  let ended (line : List Char) : List Char :=
    if line.getLast? = some '\r' then line.dropLast else line
  pieces.dropLast.map ended ++ pieces.getLast?.toList

/-- What an ignore file says: its patterns in order, and whether it has a fault. -/
structure PatternFile where
  patterns : List Pattern
  isFaulty : Bool

namespace PatternFile

def empty : PatternFile := ⟨[], false⟩

def broken : PatternFile := ⟨[], true⟩

/-- Reads an ignore file.  Byte order marks in front of it do not count. -/
def read (text : String) : PatternFile :=
  let lines := (textLines (text.toList.dropWhile (· = '\uFEFF'))).map Pattern.ofLine?
  let patterns := lines.filterMap Option.join
  if patterns.all fun p => Glob.isShallow p.glob then ⟨patterns, lines.any Option.isNone⟩
  else broken

def verdict? (f : PatternFile) (path : String) (isDirectory : Bool) : Option Verdict :=
  (f.patterns.reverse.find? fun p => p.isAbout path isDirectory).map Pattern.verdict

end PatternFile

end ApiLint.Ignore
