/-!
# Decimal numerals

A `Numeral` is the written form of a JSON number, taken apart: sign, digits before the point, digits
after it, exponent.  `Numeral.ofChars?` accepts the JSON grammar and nothing else.

A numeral stands for a binary floating-point number in two ways.  `Numeral.scaled?` is the quick one:
as many leading digits as fit in 64 bits, times or divided by a power of ten.  `nearestFloat` is the
exact one, for numerals of the wider grammar of `readFloat?`, which also knows infinities.
-/

namespace ApiLint

def digitValue (c : Char) : Nat :=
  c.toNat - '0'.toNat

/-- The number that a string of decimal digits denotes. -/
def digitsValue (ds : List Char) : Nat :=
  ds.foldl (fun n d => n * 10 + digitValue d) 0

/-- The first number that does not fit in 64 bits. -/
def wordLimit : Nat := 18446744073709551616

/-- The first number that does not fit in 63 bits; its negative is the least that fits in 64 bits with a
sign. -/
def signedLimit : Nat := 9223372036854775808

def isNumeralChar (c : Char) : Bool :=
  c.isDigit || c = '-' || c = '+' || c = '.' || c = 'e' || c = 'E'

/-- A decimal numeral.  The exponent is its sign as written, if any, and its digits. -/
structure Numeral where
  negative : Bool
  whole : List Char
  fraction : Option (List Char)
  exponent : Option (Char × Option Char × List Char)
  deriving DecidableEq, Repr

namespace Numeral

/-! ### The grammar -/

/-- A run of digits without a leading zero. -/
def wholeOk (ds : List Char) : Bool :=
  !ds.isEmpty && (ds.head? != some '0' || ds.length == 1)

def exponentSign : List Char → Option Char × List Char
  | '+' :: cs => (some '+', cs)
  | '-' :: cs => (some '-', cs)
  | cs => (none, cs)

/-- The exponent that makes up all of `cs`; no text, no exponent. -/
def exponentOf? : List Char → Option (Option (Char × Option Char × List Char))
  | [] => some none
  | c :: cs =>
    if c = 'e' || c = 'E' then
      let (sign, ds) := exponentSign cs
      if !ds.isEmpty && ds.all Char.isDigit then some (some (c, sign, ds)) else none
    else none

/-- The fraction and the exponent that make up all of `cs`. -/
def tailOf? : List Char → Option (Option (List Char) × Option (Char × Option Char × List Char))
  | '.' :: cs =>
    let ds := cs.takeWhile Char.isDigit
    if ds.isEmpty then none
    else (exponentOf? (cs.dropWhile Char.isDigit)).map fun e => (some ds, e)
  | cs => (exponentOf? cs).map fun e => (none, e)

def signOf : List Char → Bool × List Char
  | '-' :: cs => (true, cs)
  | cs => (false, cs)

def ofChars? (cs : List Char) : Option Numeral :=
  let (negative, ds) := signOf cs
  let whole := ds.takeWhile Char.isDigit
  if wholeOk whole then
    (tailOf? (ds.dropWhile Char.isDigit)).map fun t => ⟨negative, whole, t.1, t.2⟩
  else none

/-! ### The quick value -/

/-- Appends digits to `n` while the number stays below the limit of 64 bits, and returns the digits left out. -/
def gather (n : Nat) : List Char → Nat × List Char
  | [] => (n, [])
  | d :: ds =>
    let m := n * 10 + digitValue d
    if m < wordLimit then gather m ds else (n, d :: ds)

/-- Ten to the `n`, rounded to the nearest floating-point number. -/
def tenTo (n : Nat) : Float :=
  Float.ofScientific 1 false n

/-- `f` times ten to the `e`, in floating-point steps; `none` if it is too large. -/
def scaleFloat? (f : Float) (e : Int) : Option Float :=
  if e.natAbs ≤ 308 then
    if 0 ≤ e then
      let g := f * tenTo e.natAbs
      if g.isInf then none else some g
    else some (f / tenTo e.natAbs)
  else if f == 0 then some f
  else if 0 ≤ e then none
  else scaleFloat? (f / tenTo 308) (e + 308)
termination_by e.natAbs
decreasing_by omega

def exponentValue (n : Numeral) : Int :=
  match n.exponent with
  | none => 0
  | some (_, some '-', ds) => -(digitsValue ds : Int)
  | some (_, _, ds) => digitsValue ds

/-- The digits of the numeral that fit in 64 bits, and the power of ten they count. -/
def significand (n : Numeral) : Nat × Int :=
  let (w, left) := gather 0 n.whole
  let fraction := n.fraction.getD []
  let (m, unread) := gather w fraction
  (m, (left.length : Int) - (fraction.length - unread.length : Nat) + n.exponentValue)

/-- The floating-point number that the numeral stands for, unless it is too large. -/
def scaled? (n : Numeral) : Option Float :=
  let (m, e) := n.significand
  (scaleFloat? m.toUInt64.toFloat e).map fun f => if n.negative then -f else f

def isWhole (n : Numeral) : Bool :=
  n.fraction.isNone && n.exponent.isNone

end Numeral

/-! ### The exact value -/

/-- The floating-point number nearest to `m` times ten to the `e`, a half going to the even
neighbour. -/
def nearestFloat (m : Nat) (e : Int) : Float :=
  let magnitude : Int := (Nat.toDigits 10 m).length + e
  if m = 0 || magnitude < -400 then 0
  else if 400 < magnitude then 1 / 0
  else if 0 ≤ e then Float.ofScientific m false e.natAbs
  else Float.ofScientific m true e.natAbs

/-- The sign in front of a number, plus or minus, and what follows. -/
def plusMinus : List Char → Bool × List Char
  | '-' :: cs => (true, cs)
  | '+' :: cs => (false, cs)
  | cs => (false, cs)

def readInt? (cs : List Char) : Option Int :=
  let (negative, ds) := plusMinus cs
  if !ds.isEmpty && ds.all Char.isDigit then
    some (if negative then -(digitsValue ds : Int) else digitsValue ds)
  else none

/-- The magnitude of a floating-point number: digits with at most one point among or around them and
an exponent, or a word for infinity or for no number, in letters of either case. -/
def readMagnitude? (cs : List Char) : Option Float :=
  let word := cs.map Char.toLower
  if word = "inf".toList || word = "infinity".toList then some (1 / 0)
  else if word = "nan".toList then some (0 / 0)
  else
    let whole := cs.takeWhile Char.isDigit
    let (fraction, tail) := match cs.dropWhile Char.isDigit with
      | '.' :: r => (r.takeWhile Char.isDigit, r.dropWhile Char.isDigit)
      | r => ([], r)
    if whole.isEmpty && fraction.isEmpty then none
    else
      let m := digitsValue (whole ++ fraction)
      match tail with
      | [] => some (nearestFloat m (-(fraction.length : Int)))
      | c :: r =>
        if c = 'e' || c = 'E' then
          (readInt? r).map fun e => nearestFloat m (e - fraction.length)
        else none

def readFloat? (cs : List Char) : Option Float :=
  let (negative, ds) := plusMinus cs
  (readMagnitude? ds).map fun f => if negative then -f else f

end ApiLint
