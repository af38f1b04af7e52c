/-!
# What is left of a text

A reader takes characters off the front of a text and returns what is left.  `Shorter cs` and
`NoLonger cs` are the texts that may be left of `cs` by a reader that takes something, or that may take
nothing; the proof they carry is what loops over a text end by.
-/

namespace ApiLint

/-- Size in bytes. -/
def byteSize : List Char → Nat
  | [] => 0
  | c :: cs => c.utf8Size + byteSize cs

/-- What may be left of a text from which something was taken. -/
abbrev Shorter (cs : List Char) := { rest : List Char // rest.length < cs.length }

abbrev NoLonger (cs : List Char) := { rest : List Char // rest.length ≤ cs.length }

theorem length_lt_cons (c : Char) (cs : List Char) : cs.length < (c :: cs).length :=
  Nat.lt_succ_self cs.length

theorem length_lt_cons_of_lt {rest cs : List Char} (c : Char) (h : rest.length < cs.length) :
    rest.length < (c :: cs).length :=
  Nat.lt_succ_of_lt h

theorem length_lt_cons_of_le {rest cs : List Char} (c : Char) (h : rest.length ≤ cs.length) :
    rest.length < (c :: cs).length :=
  Nat.lt_succ_of_le h

theorem length_lt_trans {rest cs ds : List Char} (h : rest.length < cs.length)
    (h' : cs.length < ds.length) : rest.length < ds.length :=
  Nat.lt_trans h h'

theorem length_lt_of_lt_cons {rest cs ds : List Char} {c : Char} (h : rest.length < (c :: cs).length)
    (h' : cs.length < ds.length) : rest.length < ds.length :=
  Nat.lt_of_le_of_lt (Nat.le_of_lt_succ h) h'

@[simp] theorem byteSize_nil : byteSize [] = 0 := rfl

@[simp] theorem byteSize_cons (c : Char) (cs : List Char) :
    byteSize (c :: cs) = c.utf8Size + byteSize cs := rfl

theorem byteSize_append (cs ds : List Char) : byteSize (cs ++ ds) = byteSize cs + byteSize ds := by
  induction cs with
  | nil => simp
  | cons c cs ih => simp [ih, Nat.add_assoc]

end ApiLint
