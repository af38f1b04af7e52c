import ApiLint.Json.PositionIndex
import ApiLint.Value

/-!
# Values as written

A `Written` is a JSON value as it stands in a text: every node knows its span, and the members of an
object are those of the text in its order, those of a repeated name included.  `Written.value` is the
value that it denotes, and `Written.record` records where its nodes were written, in the order in which
a reader comes to the ends of the values.  A repeated name takes the place of the earlier mention in
both.
-/

namespace ApiLint

inductive Written where
  | null (span : Span)
  | bool (span : Span) (b : Bool)
  | number (span : Span) (n : Number)
  | string (span : Span) (s : String)
  | array (span : Span) (items : List Written)
  | object (span : Span) (members : List (String × Written))

namespace Written

def span : Written → Span
  | null s | bool s _ | number s _ | string s _ | array s _ | object s _ => s

mutual

/-- The value that is written.  Each name counts once, in the place of its first mention. -/
def value : Written → Value
  | null _ => .null
  | bool _ b => .bool b
  | number _ n => .number n
  | string _ s => .string s
  | array _ items => .array (values items)
  | object _ members => .object (lastMentions (memberValues members))

def values : List Written → List Value
  | [] => []
  | w :: ws => w.value :: values ws

/-- The values of the members, those of a repeated name included. -/
def memberValues : List (String × Written) → List (String × Value)
  | [] => []
  | (k, w) :: ms => (k, w.value) :: memberValues ms

end

/-- What stays recorded when the member `k` of the object at `p` comes after those with the names `before`:
of an earlier member of the same name, nothing. -/
def cleared (p : Path) (before : List String) (k : String) (ix : PositionIndex) : PositionIndex :=
  if k ∈ before then ix.removeSubtree (p.child (.key k)) else ix

mutual

/-- Records the spans of a value that stands at `p`, the spans of what is in it first. -/
def record (p : Path) (ix : PositionIndex) : Written → PositionIndex
  | array s items => (recordItems p 0 ix items).insert p s
  | object s members => (recordMembers p [] ix members).insert p s
  | null s | bool s _ | number s _ | string s _ => ix.insert p s

def recordItems (p : Path) (i : Nat) (ix : PositionIndex) : List Written → PositionIndex
  | [] => ix
  | w :: ws => recordItems p (i + 1) (record (p.child (.index i)) ix w) ws

def recordMembers (p : Path) (before : List String) (ix : PositionIndex) :
    List (String × Written) → PositionIndex
  | [] => ix
  | (k, w) :: ms =>
    recordMembers p (k :: before) (record (p.child (.key k)) (cleared p before k ix) w) ms

end

theorem values_eq_map (ws : List Written) : values ws = ws.map value := by
  induction ws with
  | nil => rfl
  | cons w ws ih => rw [values, ih, List.map_cons]

theorem memberValues_eq_map (ms : List (String × Written)) :
    memberValues ms = ms.map fun m => (m.1, m.2.value) := by
  induction ms with
  | nil => rfl
  | cons m ms ih => rw [memberValues, ih, List.map_cons]

end Written

end ApiLint
