import ApiLint.ApiType
import ApiLint.FilePath

/-!
# Requests on the command line

A request is a command with its options.  An option has a long name after two hyphens and may have a
letter after one; letters may be run together, and a value stands behind the name, behind an equals
sign, or right behind the letter.  After two hyphens alone nothing is an option.  `Request.read?` reads
the arguments; `none` is a misuse.
-/

namespace ApiLint

inductive ReportFormat where
  | text
  | json
  | compact
  deriving DecidableEq, Repr

def ReportFormat.ofName? : String → Option ReportFormat
  | "text" => some text
  | "json" => some json
  | "compact" => some compact
  | _ => none

/-- What to check, and how to report. -/
structure CheckRequest where
  paths : List FilePath
  format : ReportFormat
  type : Option ApiType
  rules : Option String
  excluded : List String
  deriving DecidableEq, Repr

inductive Command where
  | check (request : CheckRequest)
  | listRules
  | init (force : Bool)
  deriving DecidableEq, Repr

/-- A command, with the settings file that was asked for. -/
structure Request where
  settings : Option FilePath
  command : Command
  deriving DecidableEq, Repr

namespace CommandLine

structure Switch where
  name : String
  letter : Option Char
  hasValue : Bool
  repeatable : Bool
  deriving DecidableEq, Repr

/-- Options with their values as they were given, and the other arguments. -/
structure Arguments where
  given : List (Switch × String)
  words : List String

/-! ### Options -/

/-- Whether an argument is an option; a hyphen alone is not. -/
def isOption (arg : String) : Bool :=
  arg.toList.head? = some '-' && arg ≠ "-"

/-- The value of an option: what is attached to it, or the next argument. -/
def valueOf (s : Switch) (attached : Option String) (args : List String) :
    Option ((Switch × String) × List String) :=
  match attached, args with
  | some v, args => some ((s, v), args)
  | none, v :: args => if isOption v then none else some ((s, v), args)
  | none, [] => none

/-- The text before the first equals sign, and what follows it if there is one. -/
def splitEquals : List Char → List Char × Option (List Char)
  | [] => ([], none)
  | c :: cs => if c = '=' then ([], some cs) else (c :: (splitEquals cs).1, (splitEquals cs).2)

def longOption (switches : List Switch) (text : List Char) (args : List String) :
    Option ((Switch × String) × List String) := do
  let (name, attached) := splitEquals text
  let s ← switches.find? fun s => s.name.toList = name
  if s.hasValue then valueOf s (attached.map String.ofList) args
  else if attached.isSome then none
  else some ((s, ""), args)

def letterOptions (switches : List Switch) (letters : List Char) (args : List String) :
    Option (List (Switch × String) × List String) :=
  match letters with
  | [] => some ([], args)
  | c :: rest => do
    let s ← switches.find? fun s => s.letter = some c
    if s.hasValue then
      let attached := match rest with
        | [] => none
        | '=' :: value => some (String.ofList value)
        | value => some (String.ofList value)
      let (given, args) ← valueOf s attached args
      return ([given], args)
    else
      let (more, args) ← letterOptions switches rest args
      return ((s, "") :: more, args)

/-- The options that an argument holds, and the arguments after it. -/
def options (switches : List Switch) (arg : String) (args : List String) :
    Option (List (Switch × String) × List String) :=
  match arg.toList with
  | '-' :: '-' :: text => (longOption switches text args).map fun r => ([r.1], r.2)
  | '-' :: letters => letterOptions switches letters args
  | _ => none

/-- Sorts arguments into options and words.  With `stop`, reading ends at the first word, with which the
words begin. -/
def sort (switches : List Switch) (stop : Bool) (args : List String) : Option Arguments :=
  match args with
  | [] => some ⟨[], []⟩
  | arg :: rest =>
    if arg = "--" then if stop then none else some ⟨[], rest⟩
    else if isOption arg then
      match options switches arg rest with
      | none => none
      | some (given, rest') =>
        if rest'.length ≤ rest.length then
          (sort switches stop rest').map fun a => ⟨given ++ a.given, a.words⟩
        else none
    else if stop then some ⟨[], arg :: rest⟩
    else (sort switches stop rest).map fun a => ⟨a.given, arg :: a.words⟩
termination_by args.length
decreasing_by
  · simp only [List.length_cons]; omega
  · simp

def noneTwice (given : List (Switch × String)) : Bool :=
  given.all fun g => g.1.repeatable || (given.filter fun h => h.1 = g.1).length = 1

def arguments? (switches : List Switch) (stop : Bool) (args : List String) : Option Arguments :=
  (sort switches stop args).filter fun a => noneTwice a.given

namespace Arguments

def values (a : Arguments) (s : Switch) : List String :=
  (a.given.filter fun g => g.1 = s).map Prod.snd

def value? (a : Arguments) (s : Switch) : Option String :=
  (a.values s).head?

def has (a : Arguments) (s : Switch) : Bool :=
  (a.value? s).isSome

end Arguments

/-! ### The options of this program -/

def verbose : Switch := ⟨"verbose", some 'v', false, false⟩

def config : Switch := ⟨"config", some 'c', true, false⟩

def format : Switch := ⟨"format", some 'f', true, false⟩

def type : Switch := ⟨"type", none, true, false⟩

def rules : Switch := ⟨"rules", none, true, false⟩

/-- Gives a piece of text by which files are excluded. -/
def exclude : Switch := ⟨"exclude", some 'e', true, true⟩

/-- Allows a file to be written over. -/
def force : Switch := ⟨"force", none, false, false⟩

/-- The options that may stand before the command and after it. -/
def general : List Switch := [verbose, config]

/-- What is read from a text that may be missing; the outer `none` is a misuse. -/
def optional {α : Type} (read : String → Option α) : Option String → Option (Option α)
  | none => some none
  | some text => (read text).map some

def path? (text : String) : Option FilePath :=
  if text.isEmpty then none else some ⟨text⟩

def checkRequest? (a : Arguments) : Option CheckRequest := do
  let words := if a.words.isEmpty then ["."] else a.words
  let paths ← words.mapM path?
  let format ← optional ReportFormat.ofName? (a.value? format)
  let type ← optional ApiType.ofName? (a.value? type)
  return ⟨paths, format.getD .text, type, a.value? rules, a.values exclude⟩

def command? (name : String) (args : List String) : Option (Arguments × Command) :=
  match name with
  | "check" => do
    let a ← arguments? (general ++ [format, type, rules, exclude]) false args
    return (a, .check (← checkRequest? a))
  | "list-rules" => do
    let a ← arguments? general false args
    if a.words.isEmpty then return (a, .listRules) else none
  | "init" => do
    let a ← arguments? (general ++ [force]) false args
    if a.words.isEmpty then return (a, .init (a.has force)) else none
  | _ => none

end CommandLine

open CommandLine in
/-- Reads the arguments of a call; `none` is a misuse.  The settings file named after the command counts
before one named in front of it. -/
def Request.read? (args : List String) : Option Request := do
  let before ← arguments? general true args
  match before.words with
  | [] => none
  | name :: rest =>
    let (after, command) ← command? name rest
    let outer ← optional path? (before.value? config)
    let inner ← optional path? (after.value? config)
    return ⟨inner.or outer, command⟩

end ApiLint
