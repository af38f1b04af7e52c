import ApiLint.Decimal
import ApiLint.Toml.Text

/-!
# Numbers and dates of a settings file

Digits of a number may have single underscores between them.  Whole numbers have 64 bits.  A date and a
time of day stand alone or together, and together they may have an offset from universal time.  A date
is kept as its text, with a `T` before the time, at most nine digits of a second and no zeros at the end
of these.
-/

namespace ApiLint.Toml

/-! ### Numbers -/

/-- The digits that follow a digit, single underscores between them, and what follows. -/
def moreDigits (isDigit : Char → Bool) : List Char → Option (List Char × List Char)
  | [] => some ([], [])
  | ['_'] => none
  | '_' :: c :: cs =>
    if isDigit c then (moreDigits isDigit cs).map fun r => (c :: r.1, r.2) else none
  | c :: cs =>
    if isDigit c then (moreDigits isDigit cs).map fun r => (c :: r.1, r.2) else some ([], c :: cs)

def digits (isDigit : Char → Bool) : List Char → Option (List Char × List Char)
  | [] => none
  | c :: cs =>
    if isDigit c then (moreDigits isDigit cs).map fun r => (c :: r.1, r.2) else none

def wholeDigits : List Char → Option (List Char × List Char)
  | '0' :: cs => some (['0'], cs)
  | cs => digits Char.isDigit cs

def signText : List Char → List Char × List Char
  | '+' :: cs => (['+'], cs)
  | '-' :: cs => (['-'], cs)
  | cs => ([], cs)

/-- The fraction that stands here: nothing, or a point and digits. -/
def fractionText : List Char → Option (List Char × List Char)
  | '.' :: cs => (digits Char.isDigit cs).map fun r => ('.' :: r.1, r.2)
  | cs => some ([], cs)

def exponentText : List Char → Option (List Char × List Char)
  | [] => some ([], [])
  | c :: cs =>
    if c = 'e' || c = 'E' then
      let (sign, rest) := signText cs
      (digits Char.isDigit rest).map fun r => ('e' :: sign ++ r.1, r.2)
    else some ([], c :: cs)

/-- A floating-point number in digits.  What is too large is a fault unless it is negative. -/
def decimalFloat (cs : List Char) : Option (Float × List Char) := do
  let (sign, rest) := signText cs
  let (whole, rest) ← wholeDigits rest
  let (fraction, rest) ← fractionText rest
  let (exponent, rest) ← exponentText rest
  if fraction.isEmpty && exponent.isEmpty then none
  else
    let f ← readFloat? (sign ++ whole ++ fraction ++ exponent)
    if f.isInf && 0 < f then none else some (f, rest)

def wordFloat (cs : List Char) : Option (Float × List Char) :=
  let (sign, rest) := signText cs
  let word := rest.take 3
  if word = ['i', 'n', 'f'] || word = ['n', 'a', 'n'] then
    (readFloat? (sign ++ word)).map fun f => (f, rest.drop 3)
  else none

def int64? (negative : Bool) (n : Nat) : Option Int :=
  if negative then if n ≤ signedLimit then some (-(n : Int)) else none
  else if n < signedLimit then some n else none

def basedValue (base : Nat) (ds : List Char) : Nat :=
  ds.foldl (fun n d => n * base + (StringLiteral.hexDigit? d).getD 0) 0

/-- A whole number after the mark of its base. -/
def basedInteger (base : Nat) (cs : List Char) : Option (Int × List Char) := do
  let isDigit (c : Char) : Bool := (StringLiteral.hexDigit? c).any (· < base)
  let (ds, rest) ← digits isDigit cs
  let i ← int64? false (basedValue base ds)
  return (i, rest)

def integer (cs : List Char) : Option (Int × List Char) :=
  match cs with
  | '0' :: 'x' :: rest => basedInteger 16 rest
  | '0' :: 'o' :: rest => basedInteger 8 rest
  | '0' :: 'b' :: rest => basedInteger 2 rest
  | _ => do
    let (sign, rest) := signText cs
    let (ds, rest) ← wholeDigits rest
    let i ← int64? (sign = ['-']) (digitsValue ds)
    return (i, rest)

/-! ### Dates -/

def exactDigits (n : Nat) (cs : List Char) : Option (List Char × List Char) :=
  let ds := cs.take n
  if ds.length = n && ds.all Char.isDigit then some (ds, cs.drop n) else none

def twoDigits (low high : Nat) (cs : List Char) : Option (List Char × List Char) :=
  (exactDigits 2 cs).filter fun r => low ≤ digitsValue r.1 && digitsValue r.1 ≤ high

def char (c : Char) : List Char → Option (List Char)
  | d :: cs => if d = c then some cs else none
  | [] => none

def daysIn (year month : Nat) : Nat :=
  if month = 2 then
    if year % 4 = 0 && (year % 100 ≠ 0 || year % 400 = 0) then 29 else 28
  else if month = 4 || month = 6 || month = 9 || month = 11 then 30
  else 31

def dayText (cs : List Char) : Option (List Char × List Char) := do
  let (year, rest) ← exactDigits 4 cs
  let rest ← char '-' rest
  let (month, rest) ← twoDigits 1 12 rest
  let rest ← char '-' rest
  let (day, rest) ← twoDigits 1 (daysIn (digitsValue year) (digitsValue month)) rest
  return (year ++ '-' :: month ++ '-' :: day, rest)

/-- The part of a second that stands here, without zeros at its end. -/
def secondFraction : List Char → List Char × List Char
  | '.' :: cs =>
    let ds := cs.takeWhile Char.isDigit
    let counted := ((ds.take 9).reverse.dropWhile (· = '0')).reverse
    if ds.isEmpty then ([], '.' :: cs)
    else (if counted.isEmpty then [] else '.' :: counted, cs.drop ds.length)
  | cs => ([], cs)

/-- A time of day, with hours up to `lastHour`. -/
def timeText (lastHour : Nat) (cs : List Char) : Option (List Char × List Char) := do
  let (hour, rest) ← twoDigits 0 lastHour cs
  let rest ← char ':' rest
  let (minute, rest) ← twoDigits 0 59 rest
  let rest ← char ':' rest
  let (second, rest) ← twoDigits 0 60 rest
  let (fraction, rest) := secondFraction rest
  return (hour ++ ':' :: minute ++ ':' :: second ++ fraction, rest)

/-- The offset from universal time that stands here.  An offset of zero has a plus sign. -/
def offsetText (cs : List Char) : List Char × List Char :=
  let numeric (sign : Char) (rest : List Char) : Option (List Char × List Char) := do
    let (hour, rest) ← twoDigits 0 23 rest
    let rest ← char ':' rest
    let (minute, rest) ← twoDigits 0 59 rest
    let zero := digitsValue hour = 0 && digitsValue minute = 0
    return ((if zero then '+' else sign) :: hour ++ ':' :: minute, rest)
  match cs with
  | 'Z' :: rest | 'z' :: rest => (['Z'], rest)
  | '+' :: rest => (numeric '+' rest).getD ([], cs)
  | '-' :: rest => (numeric '-' rest).getD ([], cs)
  | _ => ([], cs)

/-- The time of day that stands after a date, with what separates them and its offset. -/
def timeAfterDay : List Char → List Char × List Char
  | [] => ([], [])
  | c :: cs =>
    if c = 'T' || c = 't' || c = ' ' then
      match timeText 23 cs with
      | none => ([], c :: cs)
      | some (time, rest) =>
        let (offset, rest) := offsetText rest
        ('T' :: time ++ offset, rest)
    else ([], c :: cs)

def date (cs : List Char) : Option (String × List Char) :=
  match dayText cs with
  | some (day, rest) =>
    let (time, rest) := timeAfterDay rest
    some (String.ofList (day ++ time), rest)
  | none => (timeText 23 cs).map fun r => (String.ofList r.1, r.2)

/-! ### Dates in strings

A string may be read as a date.  It is a little more lenient: the hour 24 counts, and an offset is any
number of hours and minutes that makes a day at most.
-/

def offsetLimit : Nat := 24 * 60

def padded (n : Nat) : List Char :=
  [Char.ofNat (48 + n / 10), Char.ofNat (48 + n % 10)]

/-- The offset from universal time that is all of a text, in whole hours and minutes of an hour.  An offset
of zero has a plus sign. -/
def wholeOffset? : List Char → Option (List Char)
  | [] => some []
  | ['Z'] => some ['Z']
  | ['z'] => some ['Z']
  | sign :: cs => do
    let (hours, rest) ← exactDigits 2 cs
    let rest ← char ':' rest
    let (minutes, rest) ← exactDigits 2 rest
    let total := digitsValue hours * 60 + digitsValue minutes
    if (sign = '+' || sign = '-') && rest.isEmpty && total ≤ offsetLimit then
      some ((if total = 0 then '+' else sign) :: padded (total / 60) ++ ':' :: padded (total % 60))
    else none

/-- The date, time of day, or both that a string stands for, as dates are kept. -/
def dateOf? (s : String) : Option String :=
  let cs := s.toList
  if cs[2]? = some ':' then do
    let (time, rest) ← timeText 24 cs
    if rest.isEmpty then some (String.ofList time) else none
  else do
    let (day, rest) ← dayText cs
    match rest with
    | [] => some (String.ofList day)
    | c :: rest =>
      if c = 'T' || c = 't' || c = ' ' then
        let (time, rest) ← timeText 24 rest
        let offset ← wholeOffset? rest
        some (String.ofList (day ++ 'T' :: time ++ offset))
      else none

end ApiLint.Toml
