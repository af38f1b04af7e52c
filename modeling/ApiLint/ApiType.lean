/-!
# Kinds of API descriptions

Every run is for one kind of description, and every rule applies to a set of kinds.
-/

namespace ApiLint

inductive ApiType where
  | default
  | arm
  | dataPlane
  | rpaas
  deriving DecidableEq, Repr

namespace ApiType

def text : ApiType → String
  | default => "default"
  | arm => "arm"
  | dataPlane => "data-plane"
  | rpaas => "rpaas"

def all : List ApiType :=
  [default, arm, dataPlane, rpaas]

def ofText? (name : String) : Option ApiType :=
  all.find? fun t => t.text = name

/-- The kind with this name in letters of either case; the hyphen may be left out. -/
def ofName? (name : String) : Option ApiType :=
  let name := String.ofList (name.toList.map Char.toLower)
  if name = "dataplane" then some dataPlane else ofText? name

theorem ofText?_text (t : ApiType) : ofText? t.text = some t := by
  cases t <;> decide

end ApiType

structure ApiTypes where
  contains : ApiType → Bool

namespace ApiTypes

def all : ApiTypes := ⟨fun _ => true⟩

def ofList (ts : List ApiType) : ApiTypes := ⟨fun t => ts.contains t⟩

def union (a b : ApiTypes) : ApiTypes := ⟨fun t => a.contains t || b.contains t⟩

def toList (a : ApiTypes) : List ApiType :=
  ApiType.all.filter a.contains

def names (a : ApiTypes) : List String :=
  a.toList.map ApiType.text

def intersects (a b : ApiTypes) : Bool :=
  ApiType.all.any fun t => a.contains t && b.contains t

end ApiTypes

end ApiLint
