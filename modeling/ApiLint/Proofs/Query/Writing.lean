import ApiLint.Query.Reader
import ApiLint.Proofs.Query.Tokens

/-!
# Writing queries

`Style.render` writes out the steps of a query: names and texts between quotes, unions and filters in brackets, and an
expression in parentheses where it binds less tightly than its place needs (`Expr.strength`).  A style gives the quote,
and blanks to put in front of every token that a reader looks for behind blanks.

Not all of the syntax can be written, nor read.  `Step.IsWritable` says what can: indexes of 64 bits with a sign, filters
that stand alone in their brackets, and in filters whole numbers that a number of 64 bits holds.
-/

namespace ApiLint.Query

/-! ### What can be written -/

def IsIndex (i : Int) : Prop :=
  -(signedLimit : Int) ≤ i ∧ i < signedLimit

def Accessor.IsWritable : Accessor → Prop
  | key _ => True
  | index i => IsIndex i

/-- Numbers are whole and, with or without a sign, of 64 bits. -/
def Literal.IsWritable : Literal → Prop
  | number (.int i) => -(signedLimit : Int) ≤ i ∧ i < wordLimit
  | number (.real _) => False
  | undefined | null | bool _ | string _ => True

def Expr.IsWritable : Expr → Prop
  | current accessors => ∀ a ∈ accessors, a.IsWritable
  | property => True
  | literal l => l.IsWritable
  | not e => e.IsWritable
  | and e f | or e f | compare _ e f => e.IsWritable ∧ f.IsWritable

/-- What may stand in a union. -/
def Selector.IsPlain : Selector → Prop
  | name _ | wildcard => True
  | index i => IsIndex i
  | filter _ => False

/-- A union that is not empty, or one filter. -/
def AreWritable (selectors : List Selector) : Prop :=
  (selectors ≠ [] ∧ ∀ s ∈ selectors, s.IsPlain) ∨ ∃ e, selectors = [.filter e] ∧ e.IsWritable

def Step.IsWritable : Step → Prop
  | child selectors | descendant selectors => AreWritable selectors
  | parent => True

/-- How tightly an expression binds: alternatives least, then conjunctions, then a comparison. -/
def Expr.strength : Expr → Nat
  | or _ _ => 0
  | and _ _ => 1
  | compare _ _ _ => 2
  | not _ | current _ | property | literal _ => 3

/-! ### How it is written -/

/-- The quote around names and texts, and the blanks in front of tokens. -/
structure Style where
  quote : Char
  gap : List Char
  isQuote_quote : Reader.isQuote quote = true
  isBlank_gap : ∀ c ∈ gap, isBlank c = true

namespace Style

variable (w : Style)

def token (cs : List Char) : List Char :=
  w.gap ++ cs

def text (s : String) : List Char :=
  Reader.quotedText w.quote s

def accessor : Accessor → List Char
  | .key k => '[' :: (w.token (w.text k) ++ w.token [']'])
  | .index i => '[' :: (w.token (Reader.wholeText i) ++ w.token [']'])

def literal : Literal → List Char
  | .undefined => "undefined".toList
  | .null => "null".toList
  | .bool true => "true".toList
  | .bool false => "false".toList
  | .number (.int i) => Reader.wholeText i
  | .number (.real _) => []
  | .string s => w.text s

/-- Parentheses, if the strength of what is written is less than its place needs. -/
def enclose (needed strength : Nat) (cs : List Char) : List Char :=
  if strength < needed then w.token ['('] ++ (cs ++ w.token [')']) else cs

def expr : Expr → List Char
  | .or e f => w.enclose 0 e.strength (expr e) ++ (w.token "||".toList ++ w.enclose 1 f.strength (expr f))
  | .and e f => w.enclose 1 e.strength (expr e) ++ (w.token "&&".toList ++ w.enclose 2 f.strength (expr f))
  | .compare op e f => w.enclose 3 e.strength (expr e) ++ (w.token op.symbol ++ w.enclose 3 f.strength (expr f))
  | .not e => w.token ['!'] ++ w.enclose 3 e.strength (expr e)
  | .current accessors => w.token ('@' :: accessors.flatMap w.accessor)
  | .property => w.token ('@' :: Reader.propertyWord)
  | .literal l => w.token (w.literal l)

def operand (needed : Nat) (e : Expr) : List Char :=
  w.enclose needed e.strength (w.expr e)

def selector : Selector → List Char
  | .name k => w.token (w.text k)
  | .index i => w.token (Reader.wholeText i)
  | .wildcard => w.token ['*']
  | .filter e => w.token ['?'] ++ (w.token ['('] ++ (w.expr e ++ w.token [')']))

def selectors : List Selector → List Char
  | [] => w.token [']']
  | [s] => w.selector s ++ w.token [']']
  | s :: ss => w.selector s ++ (w.token [','] ++ selectors ss)

def step : Step → List Char
  | .child ss => w.token ('[' :: w.selectors ss)
  | .descendant ss => w.token ('.' :: '.' :: '[' :: w.selectors ss)
  | .parent => w.token ['^']

/-- The text of a query with the given steps. -/
def render (steps : List Step) : String :=
  String.ofList (w.token ['$'] ++ (steps.flatMap w.step ++ w.gap))

end Style

end ApiLint.Query
