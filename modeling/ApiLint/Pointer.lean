import ApiLint.Value

/-!
# Pointers in the standard form

A pointer is a list of names and indexes.  `Value.pointer?` walks one the way the standard for pointers
into JSON lays down: a name is followed in an object, and an index, written without a sign or a leading
zero, in an array.
-/

namespace ApiLint

/-- The index that a token denotes in the standard form. -/
def standardIndex? (cs : List Char) : Option Nat :=
  if cs = ['0'] then some 0
  else if cs.all Char.isDigit && !cs.isEmpty && cs.head? != some '0' then some (digitsValue cs)
  else none

namespace Value

/-- The child that a token of a standard pointer designates. -/
def tokenChild? (v : Value) (token : String) : Option Value :=
  match v with
  | object _ => v.member? token
  | array _ => (standardIndex? token.toList).bind v.element?
  | _ => none

def pointer? (v : Value) : List String → Option Value
  | [] => some v
  | token :: tokens => (v.tokenChild? token).bind fun c => c.pointer? tokens

end Value

end ApiLint
