import ApiLint.Environment
import ApiLint.Ignore.Pattern

/-!
# The caller's own ignore file

A caller may have an ignore file for all repositories.  The git configuration of the caller sets its path
under the name `excludesfile`; where nothing is set it is `.config/git/ignore` in the home directory.  The
configuration is searched for the first line that sets the name, whatever section it is in.
-/

namespace ApiLint.Ignore

namespace Configuration

/-- A character between the words of a configuration: a space, or one of the five characters from the tab
to the carriage return. -/
def isSpacing (c : Char) : Bool :=
  c = ' ' || ('\t' ≤ c && c ≤ '\r')

def skipSpacing (cs : List Char) : List Char :=
  cs.dropWhile isSpacing

def endsLine (cs : List Char) : Bool :=
  (cs.takeWhile isSpacing).contains '\n' || (skipSpacing cs).isEmpty

/-- Whether a value ends here, with a closing quote behind it or not. -/
def endsValue (cs : List Char) : Bool :=
  endsLine cs ||
    match skipSpacing cs with
    | '"' :: rest => endsLine rest
    | _ => false

/-- The characters up to the first place where a value ends: at least one, and no spacing. -/
def word? : List Char → Option (List Char)
  | [] => none
  | c :: cs =>
    if isSpacing c then none
    else if endsValue cs then some [c]
    else (word? cs).map (c :: ·)

/-- The value behind an equals sign.  A quote in front of it belongs to it only if it cannot be read
otherwise. -/
def value? (cs : List Char) : Option (List Char) :=
  let quoted := match skipSpacing cs with
    | '"' :: rest => word? (skipSpacing rest)
    | _ => none
  quoted <|> word? (skipSpacing cs)

def pathName : List Char := "excludesfile".toList

/-- The path that is set at the start of a text, its name in any case. -/
def setPath? (cs : List Char) : Option (List Char) :=
  let start := skipSpacing cs
  if (start.take pathName.length).map Char.toLower = pathName then
    match skipSpacing (start.drop pathName.length) with
    | '=' :: rest => value? rest
    | _ => none
  else none

/-- The path that is set at the start of the first line behind here that sets one. -/
def pathBehind? : List Char → Option (List Char)
  | [] => none
  | c :: cs => if c = '\n' then setPath? cs <|> pathBehind? cs else pathBehind? cs

def path? (text : String) : Option (List Char) :=
  setPath? text.toList <|> pathBehind? text.toList

end Configuration

def expandTildes (home : FilePath) (cs : List Char) : FilePath :=
  ⟨String.ofList (cs.flatMap fun c => if c = '~' then home.text.toList else [c])⟩

/-- The configurations of a caller, the first that sets a path deciding. -/
def configurations (home : FilePath) : List FilePath :=
  [".gitconfig", ".config/git/config"].map fun name => home.join ⟨name⟩

def ownPath? (e : Environment) : Option FilePath :=
  e.home.map fun home =>
    match (configurations home).findSome? fun p => (e.read? p).bind Configuration.path? with
    | some path => expandTildes home path
    | none => home.join ⟨".config/git/ignore"⟩

def ownFile (e : Environment) : PatternFile :=
  (((ownPath? e).bind e.read?).map PatternFile.read).getD .empty

end ApiLint.Ignore
